import StackHeap.Proofs.Session.Endings
import StackHeap.Proofs.Session.Invariants
import StackHeap.Proofs.Session.Names
import StackHeap.Proofs.Store.Collection

/-! # What is told of collected entries

A command that takes holders away may collect entries, and its report ends in their addresses.  They
are exactly those of the entries that go, each of them once and in the order in which they were
collected (`collections_told`).

An operation is told of with what it answers (`Reports`), and all that a report says besides the
addresses is sealed (`sealed_deed`): its names were read as identifiers, its values are shown as
values of their types, and the address of a new entry was supplied.  So the addresses in the message
can be read in one way only.

The exception is the assignment of a new object.  It collects what the variable alone referred to,
like any other assignment, but tells of the new object only. -/

namespace StackHeap

open Command Number Store Text Typing

namespace Session

/-! ### Reports -/

section Reports

variable {m m' : Memory} {op : Operation} {answer : Answer} {report : Report}

/-- What is told of an operation and its answer. -/
inductive Reports : Operation → Answer → Report → Prop where
  | declareScalar {id : Nat} {name : String} {type : Primitive} {value : Value} {a : Address} :
      Reports (.declareScalar id name type value) (.address a)
        (.declared type.name name value.display a)
  | declareNull {id : Nat} {name : String} {type : DeclaredType} {a : Address} :
      Reports (.declareNull id name type) (.address a) (.declared type.text name "null" a)
  | declareObject {id : Nat} {name category : String} {fields : List Field} {a : Address} :
      Reports (.declareObject id name category fields) (.address a)
        (.constructed category name fields.length a)
  | declareArray {id : Nat} {name : String} {type : DeclaredType} {elements : List Element}
      {a : Address} : Reports (.declareArray id name type elements) (.address a)
        (.listed type.text name elements.length a)
  | declareCopy {id : Nat} {name source : String} {type : DeclaredType} {a : Address} :
      Reports (.declareCopy id name type source) (.address a) (.declared type.text name source a)
  | assign {id : Nat} {target source : String} {es : List Entry} :
      Reports (.assign id target source) (.collected es) (.assigned target source (addresses es))
  | assignLiteral {id : Nat} {target : String} {source : Primitive} {value : Value} :
      Reports (.assignLiteral id target source value) .done (.assigned target value.display [])
  | assignNull {id : Nat} {target : String} {es : List Entry} :
      Reports (.assignNull id target) (.collected es) (.assigned target "null" (addresses es))
  | assignNew {id : Nat} {target category : String} {fields : List Field} {a : Address} :
      Reports (.assignNew id target category fields) (.address a) (.assignedNew target category a)
  | enter {name : String} {id : Nat} : Reports (.enter name) (.entered id) (.entered name id)
  | leave {f : Frame} {es : List Entry} :
      Reports .leave (.left f es) (.left f.name (addresses es))

/-- An operation that is answered is told of. -/
theorem exists_reports (h : op.run m = .ok answer m') :
    ∃ report, tell op m = .ok report m' ∧ Reports op answer report := by
  have hmap : ∀ {α : Type} (x : MemoryM α) (g : α → Answer) (f : α → Report),
      (∀ a, Reports op (g a) (f a)) → (g <$> x) m = .ok answer m' →
      ∃ report, (f <$> x) m = .ok report m' ∧ Reports op answer report := by
    intro α x g f hf hx
    simp only [Functor.map, EStateM.map] at hx ⊢
    cases hxm : x m with
    | ok a m₁ =>
        rw [hxm] at hx
        cases hx
        exact ⟨f a, rfl, hf a⟩
    | error e m₁ =>
        rw [hxm] at hx
        cases hx
  cases op <;> exact hmap _ _ _ (fun _ => by constructor) h

/-- The addresses at the end of a report. -/
def Report.collected : Report → List Address
  | left _ collected => collected
  | assigned _ _ collected => collected
  | _ => []

/-- The report without the addresses at its end. -/
def Report.deed : Report → Report
  | left frame _ => left frame []
  | assigned target value _ => assigned target value []
  | r => r

/-- The addresses are told at the end. -/
theorem Report.message_eq (r : Report) : r.message = r.deed.message ++ collectedText r.collected := by
  have hnil : ∀ text : String, text ++ collectedText [] = text := fun _ => String.append_empty
  cases r with
  | left frame as =>
      change _ = ("left frame '" ++ frame ++ "'" ++ collectedText []) ++ collectedText as
      rw [hnil]
      rfl
  | assigned target value as =>
      change _ = (target ++ " = " ++ value ++ collectedText []) ++ collectedText as
      rw [hnil]
      rfl
  | entered frame id => exact (hnil _).symm
  | declared type name value a => exact (hnil _).symm
  | constructed category name fields a => exact (hnil _).symm
  | listed type name elements a => exact (hnil _).symm
  | assignedNew target category a => exact (hnil _).symm

theorem Reports.collected_eq (h : Reports op answer report) :
    report.collected = addresses answer.collectedEntries := by
  cases h <;> rfl

/-- An address that is answered was supplied. -/
theorem plain_of_step {a : Address} (h : Step m op answer m') (ha : answer = .address a) :
    a.Plain := by
  have hnext : m.addresses.next = a → a.Plain := fun he => he ▸ plain_next _
  cases h <;> first | exact hnext (Answer.address.inj ha) | cases ha

/-- An entry that goes was live, so its address was supplied. -/
theorem plain_of_loses {h : Heap} {dropped as : List Address} (hs : m.Sound [])
    (hl : m.heap.Loses h dropped as) : ∀ a ∈ as, a.Plain := by
  intro a ha
  obtain ⟨e, he⟩ := Option.isSome_iff_exists.1 ((hl.mem_iff a).1 ha).1
  obtain ⟨k, -, hk⟩ := hs.intact.supplied e (Heap.mem_of_get? he)
  rw [← Heap.address_of_get? he, hk]
  exact Address.plain_ofSeed _

theorem sealed_declared {type name value : String} {a : Address} (ht : Sealed type)
    (hn : Sealed name) (hv : Sealed value) (ha : Sealed a.token) :
    Sealed (Report.declared type name value a).message := by
  have hfirst : Sealed ("declared " ++ type) := (sealed_of_notMem (by decide)).append ht
  exact ((hfirst.join (by decide) hn).join (by decide) hv).join (by decide) ha

theorem sealed_assigned {target value : String} (ht : Sealed target) (hv : Sealed value) :
    Sealed (Report.assigned target value []).message :=
  (ht.join (by decide) hv).append (sealed_of_notMem (by decide))

/-- **What a report says besides the addresses is sealed.** -/
theorem sealed_deed (h : Reports op answer report) (hstep : Step m op answer m')
    (hnamed : op.Named) (hgiven : ∀ name ∈ op.givenNames, IsIdentifier name) (hw : op.WellTyped) :
    Sealed report.deed.message := by
  have hgivens := fun name hn => sealed_of_isIdentifier (hgiven name hn)
  have htoken : ∀ a, answer = .address a → Sealed a.token :=
    fun a ha => sealed_token (plain_of_step hstep ha)
  have hnull : Sealed "null" := sealed_of_notMem (by decide)
  cases h with
  | @declareScalar _ _ type _ a =>
      have htype : Sealed (DeclaredType.primitive type).text := sealed_typeText trivial
      exact sealed_declared htype (sealed_of_isIdentifier hnamed) (sealed_display hw) (htoken a rfl)
  | @declareNull _ _ _ a =>
      exact sealed_declared (sealed_typeText hnamed.2) (sealed_of_isIdentifier hnamed.1) hnull
        (htoken a rfl)
  | @declareCopy _ _ source _ a =>
      exact sealed_declared (sealed_typeText hnamed.2) (sealed_of_isIdentifier hnamed.1)
        (hgivens source (by simp [Operation.givenNames])) (htoken a rfl)
  -- What is constructed, and a frame that is left, are named last, between quotes.
  | declareObject => exact sealed_of_quote String.toList_append (.inr rfl)
  | declareArray => exact sealed_of_quote String.toList_append (.inr rfl)
  | leave =>
      refine .append (sealed_of_quote String.toList_append (.inr rfl)) (sealed_of_notMem ?_)
      decide
  | @assign _ target source =>
      exact sealed_assigned (hgivens target (by simp [Operation.givenNames]))
        (hgivens source (by simp [Operation.givenNames]))
  | @assignLiteral _ target =>
      exact sealed_assigned (hgivens target (by simp [Operation.givenNames])) (sealed_display hw)
  | @assignNull _ target => exact sealed_assigned (hgivens target (by simp [Operation.givenNames])) hnull
  | @assignNew _ target category _ a =>
      have htarget := hgivens target (by simp [Operation.givenNames])
      have hcategory := hgivens category (by simp [Operation.givenNames])
      exact (htarget.join (by decide) hcategory).join (by decide) (htoken a rfl)
  | @enter name id =>
      have hfirst : Sealed ("entered frame '" ++ name) :=
        (sealed_of_notMem (by decide)).append (sealed_of_isIdentifier hnamed)
      exact (hfirst.join (by decide) (sealed_naturalText id)).append (sealed_of_notMem (by decide))

end Reports

end Session

open Session

/-- **Collections are told.**  A line that is carried out stands for an operation, and its message is
the report of that operation.  It ends in the addresses of the entries that went, each of them once
and in the order in which they were collected, unless the operation assigns a new object: then it
ends in none.  The message can be read in no other way (`EndsIn`), whatever else it shows. -/
theorem collections_told (s : Session) (line : String) (hr : s.Reachable)
    (hu : (s.run line).1.memory.addresses.used ≤ pow2 53) (hok : (s.run line).2.ok = true) :
    ∃ (op : Operation) (report : Report) (as : List Address),
      plan line.toList s.memory = .ok op ∧
      tell op s.memory = .ok report (s.run line).1.memory ∧
      (s.run line).2.message = report.deed.message ++ collectedText report.collected ∧
      s.memory.heap.Loses (s.run line).1.memory.heap (op.dropped s.memory) as ∧
      report.collected = (if op.assignsNew then [] else as) ∧
      EndsIn (s.run line).2.message (if op.assignsNew then [] else as) := by
  have hs := hr.sound (Nat.le_trans (s.used_le_run line) hu)
  cases hp : plan line.toList s.memory with
  | error e =>
      rw [run_of_plan_error s line hp] at hok
      cases hok
  | ok op =>
      cases hrun : op.run s.memory with
      | error e m =>
          rw [run_of_error s line hp (by rw [Operation.error?, hrun])] at hok
          cases hok
      | ok answer m =>
          obtain ⟨report, ht, hreports⟩ := exists_reports hrun
          have hline : s.run line = (⟨m, s.transcript ++
              [⟨trimmed line, ⟨true, report.message⟩⟩]⟩, ⟨true, report.message⟩) := by
            simp only [run, execute_of_plan_ok hp, onMemory, ht]
          rw [hline] at hu ⊢
          have hafter : op.after s.memory = m := by rw [Operation.after, hrun]
          rw [← hafter] at hu
          have hw := (proper_of_plan hp).wellTyped
          rcases op.resolves hs hw.addressFree hu with ⟨e, he, -⟩ | ⟨answer', m', hok', hstep⟩
          · cases he.symm.trans hrun
          · cases hok'.symm.trans hrun
            obtain ⟨as, hloses, hanswer⟩ := hstep.loses hs hw.addressFree
            have hcollected := hreports.collected_eq.trans hanswer
            have hsealed := sealed_deed hreports hstep (named_of_plan hp)
              (isIdentifier_of_mem_givenNames hp) hw
            refine ⟨op, report, as, rfl, ht, report.message_eq, hloses, hcollected, ?_⟩
            rw [← hcollected, report.message_eq]
            refine endsIn_append hsealed ?_
            rw [hcollected]
            split
            · exact List.forall_mem_nil _
            · exact plain_of_loses hs hloses

/-- An array that goes takes the last holder of an object with it. -/
theorem collections_told_cascade :
    let s := (Session.new {}).runAll ["Cat a = (age=3);", "Cat[] k = \x7ba, null\x7d;", "a = null;"]
    (s.run "k = null;").2.message = "k = null; collected 0x3, 0x1" ∧
    ∃ as : List Address, EndsIn (s.run "k = null;").2.message as ∧
      s.memory.heap.Loses (s.run "k = null;").1.memory.heap [.nth 3] as := by
  intro s
  obtain ⟨op, report, as, hp, -, -, hloses, -, hends⟩ := collections_told s "k = null;"
    ⟨{}, _, rfl⟩ (by decide +kernel) (by decide +kernel)
  have hop : plan "k = null;".toList s.memory = .ok (.assignNull 0 "k") := by decide +kernel
  obtain rfl := Except.ok.inj (hp.symm.trans hop)
  have hdropped : (Operation.assignNull 0 "k").dropped s.memory = [.nth 3] := by decide +kernel
  rw [hdropped] at hloses
  exact ⟨by decide +kernel, as, hends, hloses⟩

/-- The object that a variable alone referred to goes when it is assigned a new one, and no word is
said of it. -/
theorem collection_untold_of_new_object :
    let s := (Session.new {}).runAll ["object a = new object(id = 1);"]
    let r := s.run "a = new object(id = 2);"
    r.2.ok = true ∧ s.memory.heap.contains (.nth 1) = true ∧
      r.1.memory.heap.contains (.nth 1) = false ∧ r.2.message = "a = new object at 0x3" := by
  decide +kernel

end StackHeap
