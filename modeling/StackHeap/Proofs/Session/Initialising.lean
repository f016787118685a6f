import StackHeap.Proofs.Session.Quoted
import StackHeap.Proofs.Store.Initialising

/-! # A declaration with a value is a declaration and an assignment

`T n = R;` declares a variable with a right-hand side.  The variable can as well be declared with a
default of its type, null or some literal, and be assigned the right-hand side in a second line.

The two ways are read by different grammars, typed by different checks and carried out by different
operations.  `Initialises` lists the right-hand sides that both take, each with the two operations:
the first line is planned exactly for them (`plan_initialising_eq_ok_iff_initialises`), and the
second is planned for them (`Initialises.assigns`) and for nothing else that is carried out
(`Initialises.of_assigns`).  As the operations agree, so do the lines
(`declaring_agrees_with_assigning`). -/

namespace StackHeap

open Command Number Store Typing

namespace Session

/-- A right-hand side for a variable of a type, with the operation that declares the variable with it
and the operation that assigns it to the variable. -/
inductive Initialises (id : Nat) (name : String) (type : DeclaredType) :
    List Lexeme → Operation → Operation → Prop where
  | literal {p : Primitive} {ls : List Lexeme} {v : Value} (ht : type = .primitive p)
      (h : Assignable p ls v) :
      Initialises id name type ls (.declareScalar id name p v) (.assignLiteral id name p v)
  | null (hr : type.isReference = true) :
      Initialises id name type [.keyword .null] (.declareNull id name type) (.assignNull id name)
  | copy (source : String) :
      Initialises id name type [.ident source] (.declareCopy id name type source)
        (.assign id name source)
  | construct {category : String} {attributes : List (List Lexeme)} {fields : List Field}
      (ht : type = .object category) (hc : Primitive.ofName? category = none)
      (ha : AttributesOf attributes fields) :
      Initialises id name type (.keyword .new :: .ident category :: .mark (.opening .round) ::
        (commaList attributes ++ [.mark (.closing .round)]))
        (.declareObject id name category fields) (.assignNew id name category fields)

variable {s : Session} {m : Memory} {id : Nat} {T n D R : String} {type : DeclaredType}
  {ls : List Lexeme} {op op' : Operation} {w : Value}

/-! ### The line that declares -/

theorem not_assignable_null {p : Primitive} {v : Value} : ¬Assignable p [.keyword .null] v := by
  intro h
  cases h with
  | literal h =>
      cases h with
      | integer hs _ _ => cases hs
      | decimal _ hs _ _ => cases hs

/-- A line that declares a variable is planned for the right-hand sides of its type, unless it
copies into a character or leaves out the constructor. -/
theorem plan_initialising_eq_ok_iff_initialises (hT : IsIdentifier T) (hn : IsIdentifier n)
    (hl : Lexes R.toList ls) (hchar : T = "char" → ∀ source, ls ≠ [.ident source])
    (hbare : Primitive.ofName? T = none → ∀ rest, ls ≠ .mark (.opening .round) :: rest) :
    plan (initialising T n R).toList m = .ok op ↔
      ∃ op', Initialises m.stack.current.id n (.ofName T) ls op op' := by
  rw [plan_initialising_eq_ok_iff hT hn hl]
  constructor
  · rintro ⟨d, hd, rfl⟩
    generalize hw : Lexeme.ident T :: .ident n :: .mark .equals :: (ls ++ [.mark .semicolon]) =
      whole at hd
    cases hd with
    | scalar h =>
        simp only [List.cons.injEq, Lexeme.ident.injEq, true_and] at hw
        obtain ⟨rfl, rfl, hside⟩ := hw
        obtain rfl := List.append_cancel_right hside
        exact ⟨_, .literal (DeclaredType.ofName_eq_primitive_iff.2 rfl) h⟩
    | @copy _ _ source ht =>
        simp only [List.cons.injEq, Lexeme.ident.injEq, true_and] at hw
        obtain ⟨rfl, rfl, hside⟩ := hw
        obtain rfl : ls = [.ident source] := List.append_cancel_right hside
        exact ⟨_, .copy source⟩
    | null ht =>
        simp only [List.cons.injEq, Lexeme.ident.injEq, true_and] at hw
        obtain ⟨rfl, rfl, hside⟩ := hw
        obtain rfl : ls = [.keyword .null] := List.append_cancel_right hside
        rw [DeclaredType.ofName_eq_object ht]
        exact ⟨_, .null rfl⟩
    | object ht ha =>
        simp only [List.cons.injEq, Lexeme.ident.injEq, true_and] at hw
        obtain ⟨rfl, rfl, hside⟩ := hw
        cases ls with
        | nil => cases hside
        | cons l rest =>
            obtain ⟨rfl, -⟩ := List.cons.inj hside
            exact absurd rfl (hbare ht rest)
    | @construct _ _ attributes fields ht ha =>
        simp only [List.cons.injEq, Lexeme.ident.injEq, true_and] at hw
        obtain ⟨rfl, rfl, hside⟩ := hw
        obtain rfl : ls = .keyword .new :: .ident T :: .mark (.opening .round) ::
            (commaList attributes ++ [.mark (.closing .round)]) := by
          refine List.append_cancel_right (hside.trans ?_)
          simp
        exact ⟨_, .construct (DeclaredType.ofName_eq_object ht) ht ha⟩
    | array hne he => simp at hw
  · rintro ⟨op', h⟩
    cases h with
    | @literal p ls v ht h =>
        obtain rfl := DeclaredType.ofName_eq_primitive_iff.1 ht
        exact ⟨_, .scalar h, rfl⟩
    | null hr =>
        have ht := DeclaredType.isReference_ofName_iff.1 hr
        exact ⟨_, .null ht, by rw [DeclaredType.ofName_eq_object ht]; rfl⟩
    | copy source => exact ⟨_, .copy fun he => hchar he source rfl, rfl⟩
    | @construct category attributes fields ht hc ha =>
        obtain rfl := (DeclaredType.ofName_eq_object_iff.1 ht).2
        refine ⟨⟨n, .object T fields⟩, ?_, rfl⟩
        have hd := @Declares.construct T n attributes fields hc ha
        simpa using hd

/-! ### The line that assigns -/

theorem Initialises.assigns (h : Initialises id n type ls op op') : Assigns id n type ls op' := by
  cases h with
  | literal ht h =>
      subst ht
      exact .literal rfl (fun he => not_assignable_null (he ▸ h)) h
  | null hr => exact .null
  | copy source => exact .variable source
  | construct ht hc ha => exact .construct hc ha

/-- What is assigned to a variable that was declared is a right-hand side for its type. -/
theorem Initialises.of_assigns (hm : m.Awaits id n type w) (h : Assigns id n type ls op')
    (he : op'.error? (m.declared id n type w) = none) : ∃ op, Initialises id n type ls op op' := by
  obtain ⟨f, hf, hfree, hfd, hx⟩ := hm.found
  cases h with
  | «variable» source => exact ⟨_, .copy source⟩
  | null =>
      obtain ⟨answer, m', hstep⟩ := (Operation.resolves_assignNull hm.sound_declared).step he
      cases hstep with
      | assignNull hf' hx' hr =>
          obtain rfl := Option.some.inj (hfd.symm.trans hf')
          obtain rfl := Option.some.inj (hx.symm.trans hx')
          exact ⟨_, .null hr⟩
  | @construct category attributes fields hc ha =>
      by_cases ht : type = .object category
      · exact ⟨_, .construct ht hc ha⟩
      · exact absurd he (Operation.error?_of_refuses (Operation.refuses_assignNew hfd hx ht))
  | literal ht hnull h => exact ⟨_, .literal (DeclaredType.eq_of_primitive? ht) h⟩

/-! ### Both lines -/

theorem isReference_of_assignable {p : Primitive} {v : Value} (h : Assignable p ls v) :
    v.isReference = false := by
  cases h with
  | literal h => cases h <;> rfl
  | char ha hc =>
      rw [Value.isReference_widen]
      rfl

/-- How the memories after both ways are related: they are the same, but for a new object the
addresses of the object and of the variable are exchanged. -/
def Exchanged (m : Memory) (id : Nat) (name : String) : Operation → Memory → Memory → Prop
  | .declareObject _ _ category fields, m₁, m₂ =>
    m₁ = m.constructed id name category fields m.addresses.next m.addresses.advance.next ∧
      m₂ = m.constructed id name category fields m.addresses.advance.next m.addresses.next
  | _, m₁, m₂ => m₁ = m₂

/-- **The operations of a right-hand side agree.** -/
theorem Initialises.agree (h : Initialises id n type ls op op') (hm : m.Awaits id n type w)
    (hother : ls ≠ [.ident n])
    (hu : ∀ rest, ls = .keyword .new :: rest → m.addresses.used < pow2 53) :
    Operation.Agree (Exchanged m id n op) op m op' (m.declared id n type w) := by
  cases h with
  | literal ht h =>
      subst ht
      exact Memory.scalar_agree hm (isReference_of_assignable h)
  | null hr => exact Memory.null_agree hm hr
  | copy source => exact Memory.copy_agree hm fun he => hother (by rw [he])
  | construct ht hc ha =>
      subst ht
      exact Memory.object_agree hm (hu _ rfl)

/-- A text for the default of a type: null for an object category, and a literal for a primitive
type. -/
inductive IsDefault : String → String → Prop where
  | null {T D : String} (ht : Primitive.ofName? T = none) (hd : Lexes D.toList [.keyword .null]) :
      IsDefault T D
  | literal {p : Primitive} {D : String} {ls : List Lexeme} {v : Value} (hd : Lexes D.toList ls)
      (h : Assignable p ls v) : IsDefault p.name D

/-- Every type has a default. -/
theorem exists_isDefault (T : String) : ∃ D, IsDefault T D := by
  have hliteral : ∀ (p : Primitive) (D : String) (ls : List Lexeme) (v : Value),
      lexemes? D.toList = some ls → checkAssignable p D.toList = .ok v → ∃ D, IsDefault p.name D :=
    fun p D ls v hl hv =>
      have hd := lexemes?_eq_some_iff.1 hl
      ⟨D, .literal hd ((checkAssignable_eq_ok_iff hd).1 hv)⟩
  cases ht : Primitive.ofName? T with
  | none => exact ⟨"null", .null ht (lexemes?_eq_some_iff.1 (by decide +kernel))⟩
  | some p =>
      rw [Primitive.ofName?_eq_some_iff.1 ht]
      cases p with
      | boolean =>
          exact hliteral _ "true" [.keyword .yes] (.bool true) (by decide +kernel) (by decide +kernel)
      | char =>
          exact hliteral _ "'a'" [.charLiteral "a"] (.char 'a') (by decide +kernel)
            (by decide +kernel)
      | string =>
          exact hliteral _ "\"\"" [.stringLiteral ""] (.text "") (by decide +kernel)
            (by decide +kernel)
      | float | double =>
          exact hliteral _ "0" [.number "0"] (.float (.ofNat 0)) (by decide +kernel)
            (by decide +kernel)
      | _ => exact hliteral _ "0" [.number "0"] (.int 0) (by decide +kernel) (by decide +kernel)

/-- With a default the variable is declared. -/
theorem exists_awaits_of_isDefault (hs : m.Sound []) (hT : IsIdentifier T) (hn : IsIdentifier n)
    (hfree : ∃ f, m.stack.frame? m.stack.current.id = some f ∧ f.slot? n = none)
    (hD : IsDefault T D) : ∃ w op answer, m.Awaits m.stack.current.id n (.ofName T) w ∧
      plan (initialising T n D).toList m = .ok op ∧
      op.run m = .ok answer (m.declared m.stack.current.id n (.ofName T) w) := by
  obtain ⟨f, hf, hslot⟩ := hfree
  have hreq := Memory.requireFree_ok hf hslot
  cases hD with
  | null ht hd =>
      have hplan := (plan_initialising_eq_ok_iff (m := m) hT hn hd).2 ⟨_, .null ht, rfl⟩
      rw [DeclaredType.ofName_eq_object ht]
      exact ⟨.null, _, _, ⟨hs, ⟨f, hf, hslot⟩, rfl, rfl⟩, hplan,
        Memory.map_ok _ (Memory.declareNull_ok hf hreq rfl)⟩
  | @literal p _ ls v hd h =>
      have hplan := (plan_initialising_eq_ok_iff (m := m) hT hn hd).2 ⟨_, .scalar h, rfl⟩
      have hv := isReference_of_assignable h
      have hw : (v.widen p).isReference = false := by rw [Value.isReference_widen, hv]
      rw [DeclaredType.ofName_eq_primitive_iff.2 rfl]
      exact ⟨v.widen p, _, _, ⟨hs, ⟨f, hf, hslot⟩, hw.symm, Value.referent?_eq_none hw⟩, hplan,
        Memory.map_ok _ (Memory.declareScalar_ok hf hreq hv)⟩

/-- A line that is planned is carried out if its operation is. -/
theorem run_ok_iff (s : Session) (line : String) : (s.run line).2.ok = true ↔
    ∃ op, plan line.toList s.memory = .ok op ∧ op.error? s.memory = none := by
  cases hp : plan line.toList s.memory with
  | error e => simp [run_of_plan_error s line hp]
  | ok op =>
      cases he : op.error? s.memory with
      | some e => simp [run_of_error s line hp he, he]
      | none =>
          obtain ⟨report, hr⟩ := run_of_ok s line hp he
          simp [hr, he]

/-- What is planned can be read. -/
theorem readable_of_plan {cs : List Char} (h : plan cs m = .ok op) : Readable cs := by
  cases hts : readTokens cs with
  | ok ts =>
      obtain ⟨ls, hl, -⟩ := exists_remain_of_readTokens hts
      exact ⟨ls, hl⟩
  | error e =>
      -- A line that cannot be read counts as a declaration, which then fails.
      have hk : classify cs = .ok .declaration := by
        unfold classify
        rw [hts]
        cases terminated cs <;> rfl
      simp only [plan, bind_eq_ok, mapError_eq_ok] at h
      obtain ⟨kind, hkind, h⟩ := h
      obtain rfl := Except.ok.inj (hk.symm.trans hkind)
      simp only [bind_eq_ok, mapError_eq_ok] at h
      obtain ⟨d, hd, -⟩ := h
      obtain ⟨ls, hl, -⟩ := declares_of_process hd
      exact ⟨ls, hl⟩

/-- Both ways, for a right-hand side that can be read. -/
theorem both_ways_agree (hs : s.memory.Sound []) (hT : IsIdentifier T) (hn : IsIdentifier n)
    (hk : Primitive.ofName? n = none) (hfree : s.IsFree n) (hD : IsDefault T D)
    (hl : Lexes R.toList ls) (hother : ls ≠ [.ident n])
    (hchar : T = "char" → ∀ source, ls ≠ [.ident source])
    (hbare : Primitive.ofName? T = none → ∀ rest, ls ≠ .mark (.opening .round) :: rest)
    (hu : ∀ rest, ls = .keyword .new :: rest → s.memory.addresses.used < pow2 53) :
    ((s.run (initialising T n R)).2.ok = true ↔ (s.run (initialising T n D)).2.ok = true ∧
      ((s.run (initialising T n D)).1.run (assigning n R)).2.ok = true) ∧
    ((s.run (initialising T n R)).2.ok = true → ∃ op op',
      Initialises s.memory.stack.current.id n (.ofName T) ls op op' ∧
      Exchanged s.memory s.memory.stack.current.id n op (s.run (initialising T n R)).1.memory
        ((s.run (initialising T n D)).1.run (assigning n R)).1.memory) := by
  obtain ⟨w, op₀, answer, hm, hplan₀, hrun₀⟩ :=
    exists_awaits_of_isDefault hs hT hn hfree.exists_frame hD
  obtain ⟨hok₀, hmem₀⟩ := run_of_answer hplan₀ hrun₀
  have hid : (s.memory.declared s.memory.stack.current.id n (.ofName T) w).stack.current.id =
      s.memory.stack.current.id :=
    Stack.id_current_update (g := (·.push _)) (fun _ => rfl) _ _
  have hlook : (s.memory.declared s.memory.stack.current.id n (.ofName T) w).lookup
      s.memory.stack.current.id n = .ok ⟨s.memory.addresses.next, n, .ofName T, w⟩ := by
    obtain ⟨f, hf, hslot⟩ := hm.free
    exact Memory.lookup_declared hf hslot _ w
  -- What the second line is planned as, in the memory that the first one leaves.
  have hassign : ∀ op', plan (assigning n R).toList (s.run (initialising T n D)).1.memory = .ok op' ↔
      Assigns s.memory.stack.current.id n (.ofName T) ls op' := by
    intro op'
    rw [plan_assigning_eq_ok_iff hn hk hl, hmem₀, hid, hlook]
    simp
  have hdeclare : ∀ op, plan (initialising T n R).toList s.memory = .ok op ↔
      ∃ op', Initialises s.memory.stack.current.id n (.ofName T) ls op op' := fun _ =>
    plan_initialising_eq_ok_iff_initialises hT hn hl hchar hbare
  constructor
  · rw [run_ok_iff, run_ok_iff _ (assigning n R)]
    constructor
    · rintro ⟨op, hplan, he⟩
      obtain ⟨op', hinit⟩ := (hdeclare op).1 hplan
      refine ⟨hok₀, op', (hassign op').2 hinit.assigns, ?_⟩
      rw [hmem₀]
      exact (hinit.agree hm hother hu).error?.1 he
    · rintro ⟨-, op', hplan, he⟩
      rw [hmem₀] at he
      obtain ⟨op, hinit⟩ := Initialises.of_assigns hm ((hassign op').1 hplan) he
      exact ⟨op, (hdeclare op).2 ⟨op', hinit⟩, (hinit.agree hm hother hu).error?.2 he⟩
  · rw [run_ok_iff]
    rintro ⟨op, hplan, he⟩
    obtain ⟨op', hinit⟩ := (hdeclare op).1 hplan
    refine ⟨op, op', hinit, ?_⟩
    rw [memory_of_plan s _ hplan, memory_of_plan _ _ ((hassign op').2 hinit.assigns), hmem₀]
    exact (hinit.agree hm hother hu).after he

end Session

open Session

/-- **Initialising agrees with declaring and then assigning.**  A free variable is declared with a
right-hand side exactly if it can be declared with a default of its type and then be assigned the
right-hand side.  Both ways leave the same memory, except that the addresses of a new object and of
the variable that refers to it are exchanged.

A right-hand side that names the variable itself, a copy into a character and an object without its
constructor are left out: an assignment takes the first two and no declaration does, and the third
is for declarations only.  After `2 ^ 53` addresses the next one may be that of a live entry, so a
new object has to come before. -/
theorem declaring_agrees_with_assigning {s : Session} (hr : s.Reachable)
    (hu : s.memory.addresses.used ≤ pow2 53) {T n R : String} (hT : IsIdentifier T)
    (hn : IsIdentifier n) (hk : Primitive.ofName? n = none) (hfree : s.IsFree n)
    (hother : lexemes? R.toList ≠ some [.ident n])
    (hchar : T = "char" → ∀ source, lexemes? R.toList ≠ some [.ident source])
    (hbare : Primitive.ofName? T = none →
      ∀ ls, lexemes? R.toList ≠ some (.mark (.opening .round) :: ls))
    (hnew : ∀ ls, lexemes? R.toList = some (.keyword .new :: ls) →
      s.memory.addresses.used < pow2 53) :
    (∃ D, IsDefault T D) ∧ ∀ D, IsDefault T D →
      let once := s.run (initialising T n R)
      let declared := s.run (initialising T n D)
      let assigned := declared.1.run (assigning n R)
      (once.2.ok = true ↔ declared.2.ok = true ∧ assigned.2.ok = true) ∧
      (once.2.ok = true → (∀ ls, lexemes? R.toList ≠ some (.keyword .new :: ls)) →
        once.1.memory = assigned.1.memory ∧ once.1.snapshot = assigned.1.snapshot) ∧
      (once.2.ok = true → ∀ ls, lexemes? R.toList = some (.keyword .new :: ls) →
        ∃ fields,
          let made := s.memory.constructed s.memory.stack.current.id n T fields
          let first := s.memory.addresses.next
          let second := s.memory.addresses.advance.next
          once.1.memory = made first second ∧ assigned.1.memory = made second first) := by
  refine ⟨exists_isDefault T, fun D hD => ?_⟩
  dsimp only
  by_cases hread : Readable R.toList
  · obtain ⟨ls, hl⟩ := hread
    have hside : lexemes? R.toList = some ls := lexemes?_eq_some_iff.2 hl
    rw [hside] at hother hchar hbare hnew ⊢
    simp only [ne_eq, Option.some.injEq] at hother hchar hbare hnew ⊢
    obtain ⟨hiff, hmem⟩ := both_ways_agree (hr.sound hu) hT hn hk hfree hD hl hother hchar hbare hnew
    refine ⟨hiff, fun hok hplain => ?_, fun hok rest hls => ?_⟩
    · obtain ⟨op, op', hinit, hsame⟩ := hmem hok
      have hmemory : (s.run (initialising T n R)).1.memory =
          ((s.run (initialising T n D)).1.run (assigning n R)).1.memory := by
        cases hinit with
        | construct ht hc ha => exact absurd rfl (hplain _)
        | _ => exact hsame
      exact ⟨hmemory, congrArg Snapshot.ofMemory hmemory⟩
    · obtain ⟨op, op', hinit, hmade⟩ := hmem hok
      cases hinit with
      | literal ht h => exact absurd rfl ((atoms_assignable h).head? _ (by rw [hls]; rfl)).2
      | null hr => cases hls
      | copy source => cases hls
      | @construct category attributes fields ht hc ha =>
          obtain rfl := (DeclaredType.ofName_eq_object_iff.1 ht).2
          exact ⟨fields, hmade⟩
  · -- Neither line can be read.
    have honce : (s.run (initialising T n R)).2.ok ≠ true := by
      intro hok
      obtain ⟨op, hplan, -⟩ := (run_ok_iff _ _).1 hok
      exact hread ((readable_of_plan hplan).of_initialising hT hn)
    have hassigned : ((s.run (initialising T n D)).1.run (assigning n R)).2.ok ≠ true := by
      intro hok
      obtain ⟨op, hplan, -⟩ := (run_ok_iff _ _).1 hok
      exact hread ((readable_of_plan hplan).of_assigning hn)
    exact ⟨⟨fun h => absurd h honce, fun h => absurd h.2 hassigned⟩, fun h => absurd h honce,
      fun h => absurd h honce⟩

/-- A character that is copied into a number, and a new object. -/
theorem declaring_agrees_with_assigning_new :
    let s := (Session.new {}).runAll ["Cat a = (age=3);", "char c = 'x';"]
    (s.run "double d = c;").1.snapshot = ((s.run "double d = 0;").1.run "d = c;").1.snapshot ∧
      ∃ fields,
        let made := s.memory.constructed s.memory.stack.current.id "b" "Cat" fields
        (s.run "Cat b = new Cat(age=4);").1.memory = made (.nth 4) (.nth 5) ∧
          ((s.run "Cat b = null;").1.run "b = new Cat(age=4);").1.memory =
            made (.nth 5) (.nth 4) := by
  intro s
  have hr : s.Reachable := ⟨{}, _, rfl⟩
  have hu : s.memory.addresses.used < pow2 53 := by decide +kernel
  constructor
  · have hside : lexemes? "c".toList = some [.ident "c"] := by decide +kernel
    have hd : Lexes "0".toList [.number "0"] := lexemes?_eq_some_iff.1 (by decide +kernel)
    have hzero : IsDefault "double" "0" := @IsDefault.literal .double "0" _ (.float (.ofNat 0)) hd
      ((checkAssignable_eq_ok_iff hd).1 (by decide +kernel))
    have hagree := (declaring_agrees_with_assigning (T := "double") (n := "d") (R := "c") hr
      (Nat.le_of_lt hu) (by decide +kernel) (by decide +kernel) rfl (by decide +kernel)
      (by decide +kernel) (fun h => absurd h (by decide)) (fun h => by cases h)
      (fun ls h => by rw [hside] at h; cases h)).2 "0" hzero
    exact (hagree.2.1 (by decide +kernel) fun ls h => by rw [hside] at h; cases h).2
  · have hside : lexemes? "new Cat(age=4)".toList = some [.keyword .new, .ident "Cat",
        .mark (.opening .round), .ident "age", .mark .equals, .number "4",
        .mark (.closing .round)] := by decide +kernel
    have hnull : IsDefault "Cat" "null" := .null rfl (lexemes?_eq_some_iff.1 (by decide +kernel))
    have hagree := (declaring_agrees_with_assigning (T := "Cat") (n := "b")
      (R := "new Cat(age=4)") hr (Nat.le_of_lt hu) (by decide +kernel) (by decide +kernel) rfl
      (by decide +kernel) (by decide +kernel) (fun h => absurd h (by decide))
      (fun _ ls h => by rw [hside] at h; cases h) (fun _ _ => hu)).2 "null" hnull
    obtain ⟨fields, hmade⟩ := hagree.2.2 (by decide +kernel) _ hside
    have hsupply : s.memory.addresses = ⟨3⟩ := by decide +kernel
    rw [hsupply] at hmade
    exact ⟨fields, hmade⟩

end StackHeap
