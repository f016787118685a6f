import StackHeap.Proofs.Session.Assigning

/-! # Quoted text in the memory

A text that is quoted in a command line arrives in the memory as it is.  It passes the test for the
end of the line, the cut at commas and two readings on the way, and none of them takes a character
of the text for one of the command's own (`quoted_text_survives`). -/

namespace StackHeap

open Text Number Command Store Typing

namespace Session

variable {s : Session} {name : String}

/-! ### Variables and entries -/

/-- The variable of a name, as commands look it up. -/
def slot (s : Session) (name : String) : Except MemoryError Slot :=
  s.memory.lookup s.memory.stack.current.id name

/-- No variable of the innermost frame has the name. -/
def IsFree (s : Session) (name : String) : Prop :=
  s.memory.requireFree s.memory.stack.current.id name = .ok ()

instance (s : Session) (name : String) : Decidable (s.IsFree name) :=
  inferInstanceAs (Decidable (s.memory.requireFree s.memory.stack.current.id name = .ok ()))

/-- The heap takes another entry: it is not full, and no entry is live at the next address. -/
structure HasRoom (s : Session) : Prop where
  room : s.memory.heap.hasRoom 1 = true
  fresh : s.memory.heap.get? s.memory.addresses.next = none

/-- Between two sessions an entry was allocated, and a variable declared that refers to it. -/
structure Allocates (s s' : Session) (name : String) (type : DeclaredType) (contents : Contents) :
    Prop where
  entries : s'.memory.heap.entries = s.memory.heap.entries ++
    [⟨s.memory.addresses.next, type, contents, 1, s.memory.heap.nextSequence⟩]
  slot : ∃ x, s'.slot name = .ok x ∧ x.type = type ∧ x.value.referent? = some s.memory.addresses.next

theorem IsFree.exists_frame (h : s.IsFree name) :
    ∃ f, s.memory.stack.frame? s.memory.stack.current.id = some f ∧ f.slot? name = none := by
  rcases s.memory.requireFree_cases s.memory.stack.current.id name with
    ⟨e, he, -⟩ | ⟨f, hf, hn, -⟩
  · cases he.symm.trans h
  · exact ⟨f, hf, hn⟩

/-- Until `2 ^ 53` addresses were handed out, a heap that is not full takes another entry. -/
theorem Reachable.hasRoom (hr : s.Reachable) (hu : s.memory.addresses.used < pow2 53)
    (h : s.memory.heap.hasRoom 1 = true) : s.HasRoom :=
  ⟨h, (hr.sound (Nat.le_of_lt hu)).intact.fresh hu⟩

/-! ### Lines carried out -/

variable {line : String} {m : Memory}

theorem run_of_answer {op : Operation} {answer : Answer}
    (hp : plan line.toList s.memory = .ok op) (hr : op.run s.memory = .ok answer m) :
    (s.run line).2.ok = true ∧ (s.run line).1.memory = m := by
  obtain ⟨report, hrun⟩ := run_of_ok s line hp (Operation.error?_of_run hr)
  rw [hrun, Operation.after_of_run hr]
  exact ⟨rfl, rfl⟩

/-- A line that assigns a quoted text is planned as the assignment of that text. -/
theorem plan_textAssignment (hn : IsIdentifier name) (hp : Primitive.ofName? name = none)
    {x : Slot} (hx : m.lookup m.stack.current.id name = .ok x) (ht : x.type = .primitive .string)
    (text : String) : plan (textAssignment name text).toList m =
      .ok (.assignLiteral m.stack.current.id name .string (.text text)) := by
  have hquoted : Lexes (quoted text).toList [.stringLiteral text] := by
    have h := (Delimited.nil.quoted text).lexes
    rwa [List.append_nil] at h
  refine (plan_assigning_eq_ok_iff hn hp hquoted).2 ⟨x, hx, .literal ?_ (by simp) ?_⟩
  · rw [ht]
    rfl
  · exact .literal (.text text)

/-! ### Variables and entries afterwards -/

section Afterwards

variable {s' : Session} {type : DeclaredType} {v : Value}

theorem slot_of_declared (hfree : s.IsFree name) (hstack : m.stack = s.memory.stack)
    (hm : s'.memory = m.declared s.memory.stack.current.id name type v) :
    s'.slot name = .ok ⟨m.addresses.next, name, type, v⟩ := by
  obtain ⟨f, hf, hn⟩ := hfree.exists_frame
  rw [← hstack] at hf hm
  have hid : s'.memory.stack.current.id = m.stack.current.id := by
    rw [hm]
    exact Stack.id_current_update (g := (·.push _)) (fun _ => rfl) _ _
  rw [slot, hid, hm]
  exact Memory.lookup_declared hf hn type v

theorem slot_of_written {x : Slot} (hx : s.slot name = .ok x)
    (hm : s'.memory = s.memory.written s.memory.stack.current.id name v) :
    s'.slot name = .ok { x with value := v } := by
  rcases s.memory.lookup_cases s.memory.stack.current.id name with
    ⟨e, he, -⟩ | ⟨f, y, hf, hy, hlook⟩
  · cases he.symm.trans hx
  · obtain rfl := Except.ok.inj (hlook.symm.trans hx)
    have hid : s'.memory.stack.current.id = s.memory.stack.current.id := by
      rw [hm]
      exact Stack.id_current_update (g := (·.write name v)) (fun _ => rfl) _ _
    rw [slot, hid, hm]
    exact Memory.lookup_written hf hy v

theorem allocates_of_declared {contents : Contents} (hfree : s.IsFree name)
    (hv : v.referent? = some s.memory.addresses.next)
    (hm : s'.memory = (s.memory.allocated type contents).declared s.memory.stack.current.id name
      type v) : s.Allocates s' name type contents where
  entries := by rw [hm]; rfl
  slot := ⟨_, slot_of_declared (m := s.memory.allocated type contents) hfree rfl hm, rfl, hv⟩

end Afterwards

/-! ### What becomes of a text -/

theorem run_textLine (hn : IsIdentifier name) (hfree : s.IsFree name) (text : String) :
    (s.run (textLine name text)).2.ok = true ∧ ∃ a,
      (s.run (textLine name text)).1.slot name = .ok ⟨a, name, .primitive .string, .text text⟩ := by
  have hd : Declares (.ident "String" :: .ident name :: .mark .equals ::
      ([.stringLiteral text] ++ [.mark .semicolon])) ⟨name, .scalar .string (.text text)⟩ :=
    @Declares.scalar .string _ _ _ (.literal (.text text))
  obtain ⟨f, hf, -⟩ := hfree.exists_frame
  obtain ⟨hok, hm⟩ := run_of_answer (plan_of_declares (lexes_textLine hn text) hd)
    (Memory.map_ok _ (Memory.declareScalar_ok hf hfree rfl))
  exact ⟨hok, _, slot_of_declared hfree rfl hm⟩

theorem elementValues_values (m : Memory) (id : Nat) (array : String) (type : DeclaredType)
    (values : List Value) (index : Nat) :
    m.elementValues id array type index (values.map .value) = .ok values := by
  induction values generalizing index with
  | nil => rfl
  | cons v values ih =>
      rw [List.map_cons, Memory.elementValues, ih]
      rfl

theorem filterMap_texts (texts : List String) :
    (texts.map Value.text).filterMap Value.referent? = [] := by
  rw [List.filterMap_map, List.filterMap_eq_nil_iff]
  exact fun _ _ => rfl

theorem run_textsLine (hn : IsIdentifier name) (hfree : s.IsFree name) (hroom : s.HasRoom)
    {texts : List String} (hne : texts ≠ []) :
    (s.run (textsLine name texts)).2.ok = true ∧
      s.Allocates (s.run (textsLine name texts)).1 name (.array (.primitive .string))
        (.array (texts.map .text)) := by
  have helements : List.Forall₂ (ElementOf (.ofName "String"))
      (texts.map fun text => [.stringLiteral text]) ((texts.map Value.text).map .value) := by
    rw [List.map_map, List.forall₂_map_left_iff, List.forall₂_map_right_iff, List.forall₂_same]
    exact fun text _ => .literal (.literal (.text text))
  have hd := @Declares.array "String" name _ _ (by simpa using hne) helements
  obtain ⟨f, hf, -⟩ := hfree.exists_frame
  have hvalues := elementValues_values s.memory s.memory.stack.current.id name (.ofName "String")
    (texts.map .text) 0
  have hnone := filterMap_texts texts
  have hrun := Memory.declareArray_ok hf hfree hroom.room hroom.fresh hvalues (by simp [hnone])
  rw [hnone] at hrun
  obtain ⟨hok, hm⟩ := run_of_answer (plan_of_declares (lexes_textsLine hn texts) hd)
    (Memory.map_ok _ hrun)
  exact ⟨hok, allocates_of_declared hfree rfl hm⟩

/-- The field that an attribute with a text describes. -/
def textField (field : String × String) : Field := ⟨field.1, .string, .text field.2⟩

theorem run_recordLine {category : String} {fields : List (String × String)}
    (hc : IsIdentifier category) (hp : Primitive.ofName? category = none) (hn : IsIdentifier name)
    (hfree : s.IsFree name) (hroom : s.HasRoom) (hne : fields ≠ [])
    (hf : ∀ field ∈ fields, IsIdentifier field.1) (hnames : (fields.map Prod.fst).Nodup) :
    (s.run (recordLine category name fields)).2.ok = true ∧
      s.Allocates (s.run (recordLine category name fields)).1 name (.object category)
        (.object (fields.map textField)) := by
  have hattributes : AttributesOf
      (fields.map fun field => [.ident field.1, .mark .equals, .stringLiteral field.2])
      (fields.map textField) := by
    refine ⟨by simpa using hne, ?_, by rwa [List.map_map]⟩
    rw [List.forall₂_map_left_iff, List.forall₂_map_right_iff, List.forall₂_same]
    exact fun field _ => .inferred (.text _) (.text _)
  have hd := @Declares.construct category name _ _ hp hattributes
  obtain ⟨f, hframe, -⟩ := hfree.exists_frame
  obtain ⟨hok, hm⟩ := run_of_answer (plan_of_declares (lexes_recordLine hc hn hf) hd)
    (Memory.map_ok _ (Memory.declareObject_ok hframe hfree hroom.room hroom.fresh))
  exact ⟨hok, allocates_of_declared hfree rfl hm⟩

theorem run_textAssignment (hn : IsIdentifier name) (hp : Primitive.ofName? name = none)
    {x : Slot} (hx : s.slot name = .ok x) (ht : x.type = .primitive .string) (text : String) :
    (s.run (textAssignment name text)).2.ok = true ∧
      (s.run (textAssignment name text)).1.slot name = .ok { x with value := .text text } := by
  rcases s.memory.lookup_cases s.memory.stack.current.id name with
    ⟨e, he, -⟩ | ⟨f, y, hf, hy, hlook⟩
  · cases he.symm.trans hx
  · obtain rfl := Except.ok.inj (hlook.symm.trans hx)
    obtain ⟨hok, hm⟩ := run_of_answer (plan_textAssignment hn hp hx ht text)
      (Memory.map_ok _ (Memory.assignLiteral_ok hf hy ht (by decide) rfl))
    exact ⟨hok, slot_of_written hx hm⟩

/-! ### Running out of addresses

From `2 ^ 53` on, addresses are rounded and come again.  No line of a session is needed for it but
those that visit a frame again and again. -/

/-- The memory after `n` visits to a frame with one variable. -/
def visited (n : Nat) : Memory where
  stack := { Stack.new "main" with nextId := n + 1 }
  heap := { limit := 4096 }
  addresses := ⟨n⟩
  maxFrames := 256

/-- The memory during a visit. -/
def visiting (n used : Nat) (slots : List Slot) : Memory where
  stack := ⟨⟨0, "main", []⟩, [⟨n + 1, "f", slots⟩], n + 2⟩
  heap := { limit := 4096 }
  addresses := ⟨used⟩
  maxFrames := 256

/-- A visit to a frame with one variable. -/
def visit : List String := ["enter f();", "int a = 1;", "leave;"]

/-- The variable of a visit. -/
def visitor (n : Nat) : Slot := ⟨.nth (n + 1), "a", .primitive .int, .int 1⟩

section Visits

variable {n : Nat}

theorem memory_run_enter (h : s.memory = visited n) :
    (s.run "enter f();").1.memory = visiting n n [] := by
  have hp : plan "enter f();".toList s.memory = .ok (.enter "f") := by
    have hc : classify "enter f();".toList = .ok (.enter "f") := by decide +kernel
    simp only [plan, hc]
    rfl
  have hr : (Operation.enter "f").run s.memory = .ok (.entered (n + 1)) (visiting n n []) := by
    rw [h]
    refine Memory.map_ok _ ?_
    rw [Memory.enter_eq]
    rfl
  exact (run_of_answer hp hr).2

theorem memory_run_declare (h : s.memory = visiting n n []) :
    (s.run "int a = 1;").1.memory = visiting n (n + 1) [visitor n] := by
  have hp : plan "int a = 1;".toList s.memory =
      .ok (.declareScalar (n + 1) "a" .int (.int 1)) := by
    have hc : classify "int a = 1;".toList = .ok .declaration := by decide +kernel
    have hd : process "int a = 1;".toList = .ok ⟨"a", .scalar .int (.int 1)⟩ := by decide +kernel
    rw [h]
    simp only [plan, hc, hd]
    rfl
  have hr : (Operation.declareScalar (n + 1) "a" .int (.int 1)).run s.memory =
      .ok (.address (.nth (n + 1))) (visiting n (n + 1) [visitor n]) := by
    have hf : (visiting n n []).stack.frame? (n + 1) = some ⟨n + 1, "f", []⟩ := by
      simp [visiting, Stack.frame?, Stack.frames]
    have hfree : (visiting n n []).requireFree (n + 1) "a" = .ok () := by
      simp only [Memory.requireFree, Memory.frame, hf]
      rfl
    rw [h]
    refine Memory.map_ok _ ?_
    rw [Memory.declareScalar_ok hf hfree rfl]
    simp [Memory.declared, visiting, Stack.update, Frame.push, visitor, Address.Supply.next,
      Address.Supply.advance, Value.widen, Primitive.isFloating]
  exact (run_of_answer hp hr).2

theorem memory_run_leave (h : s.memory = visiting n (n + 1) [visitor n]) :
    (s.run "leave;").1.memory = visited (n + 1) := by
  have hp : plan "leave;".toList s.memory = .ok .leave := by
    have hc : classify "leave;".toList = .ok .leave := by decide +kernel
    simp only [plan, hc]
    rfl
  have hr : Operation.leave.run s.memory =
      .ok (.left ⟨n + 1, "f", [visitor n]⟩ []) (visited (n + 1)) := by
    rw [h]
    rfl
  exact (run_of_answer hp hr).2

theorem memory_runAll_visit (h : s.memory = visited n) :
    (s.runAll visit).memory = visited (n + 1) :=
  memory_run_leave (memory_run_declare (memory_run_enter h))

end Visits

theorem memory_runAll_visits (n : Nat) :
    ((Session.new {}).runAll (List.replicate n visit).flatten).memory = visited n := by
  induction n with
  | zero => rfl
  | succ n ih =>
      rw [List.replicate_succ', List.flatten_concat, runAll_append]
      exact memory_runAll_visit ih

theorem exists_visited (n : Nat) : ∃ s : Session, s.Reachable ∧ s.memory = visited n :=
  ⟨_, ⟨{}, _, rfl⟩, memory_runAll_visits n⟩

theorem memory_run_congr {s t : Session} (h : s.memory = t.memory) (line : String) :
    (s.run line).1.memory = (t.run line).1.memory := by
  simp only [run, h]

end Session

/-! ### Quoted text survives -/

open Session

/-- **Quoted text survives.**  In any session, a line that declares a variable of a quoted text, an
array of quoted texts or an object with quoted texts in its fields is carried out if the name is
free, and if the heap takes another entry where there is one.  What is stored are the texts
themselves, in order.  So it is with the assignment to a variable for texts, as long as its name is
not that of a primitive type: such a line counts as a declaration that misses its name. -/
theorem quoted_text_survives (s : Session) (name : String) (hn : IsIdentifier name) :
    (s.IsFree name → ∀ text, (s.run (textLine name text)).2.ok = true ∧ ∃ a,
      (s.run (textLine name text)).1.slot name = .ok ⟨a, name, .primitive .string, .text text⟩) ∧
    (s.IsFree name → s.HasRoom → ∀ texts, texts ≠ [] →
      (s.run (textsLine name texts)).2.ok = true ∧
      s.Allocates (s.run (textsLine name texts)).1 name (.array (.primitive .string))
        (.array (texts.map .text))) ∧
    (s.IsFree name → s.HasRoom → ∀ category fields, IsIdentifier category →
      Primitive.ofName? category = none → fields ≠ [] →
      (∀ field ∈ fields, IsIdentifier field.1) → (fields.map Prod.fst).Nodup →
      (s.run (recordLine category name fields)).2.ok = true ∧
      s.Allocates (s.run (recordLine category name fields)).1 name (.object category)
        (.object (fields.map fun field => ⟨field.1, .string, .text field.2⟩))) ∧
    (Primitive.ofName? name = none → ∀ x text, s.slot name = .ok x →
      x.type = .primitive .string → (s.run (textAssignment name text)).2.ok = true ∧
      (s.run (textAssignment name text)).1.slot name = .ok { x with value := .text text }) := by
  refine ⟨run_textLine hn, ?_, ?_, ?_⟩
  · exact fun hfree hroom texts hne => run_textsLine hn hfree hroom hne
  · exact fun hfree hroom category fields hc hp hne hf hnames =>
      run_recordLine hc hp hn hfree hroom hne hf hnames
  · exact fun hp x text hx ht => run_textAssignment hn hp hx ht text

/-- A text with commas, brackets, quotes, a backslash, a line feed and a blank at its end. -/
theorem quoted_text_survives_marks :
    let s := Session.new {}
    let text := "a, \"b\"](\x7d;'\\\n "
    (∃ a, (s.run (textLine "x" text)).1.slot "x" =
      .ok ⟨a, "x", .primitive .string, .text text⟩) ∧
    s.Allocates (s.run (textsLine "x" [text, ""])).1 "x" (.array (.primitive .string))
      (.array [.text text, .text ""]) ∧
    s.Allocates (s.run (recordLine "T" "x" [("f", text), ("g", "")])).1 "x" (.object "T")
      (.object [⟨"f", .string, .text text⟩, ⟨"g", .string, .text ""⟩]) ∧
    ((s.run (textLine "x" "")).1.run (textAssignment "x" text)).2.ok = true := by
  intro s text
  have hn : IsIdentifier "x" := by decide +kernel
  have hroom : s.HasRoom := ⟨rfl, rfl⟩
  obtain ⟨htext, htexts, hrecord, -⟩ := quoted_text_survives s "x" hn
  have hx := (htext rfl "").2.choose_spec
  obtain ⟨-, -, -, hassign⟩ := quoted_text_survives (s.run (textLine "x" "")).1 "x" hn
  refine ⟨(htext rfl text).2, ?_, ?_, (hassign rfl _ text hx rfl).1⟩
  · exact (htexts rfl hroom [text, ""] (List.cons_ne_nil _ _)).2
  · exact (hrecord rfl hroom "T" [("f", text), ("g", "")] (by decide +kernel) rfl
      (List.cons_ne_nil _ _) (by decide +kernel) (by decide +kernel)).2

/-- An assignment to a variable named like a primitive type is refused.  So is a declaration at an
address that came again, although the heap is not full. -/
theorem quoted_text_refused :
    (∃ s : Session, s.Reachable ∧ IsIdentifier "int" ∧
      (∃ x, s.slot "int" = .ok x ∧ x.type = .primitive .string) ∧
      (s.run (textAssignment "int" "b")).2.ok = false) ∧
    ∃ s : Session, s.Reachable ∧ s.IsFree "y" ∧ s.memory.heap.hasRoom 1 = true ∧
      (s.run (textsLine "y" ["b"])).2.ok = false := by
  constructor
  · refine ⟨(Session.new {}).runAll [textLine "int" "a"], ⟨{}, _, rfl⟩, by decide +kernel,
      ⟨⟨.nth 1, "int", .primitive .string, .text "a"⟩, by decide +kernel, rfl⟩, by decide +kernel⟩
  · obtain ⟨s, hr, hs⟩ := exists_visited (pow2 53 + 2)
    have hm : (s.run (textsLine "x" ["a"])).1.memory =
        ((⟨visited (pow2 53 + 2), []⟩ : Session).run (textsLine "x" ["a"])).1.memory :=
      memory_run_congr hs _
    refine ⟨(s.run (textsLine "x" ["a"])).1, hr.run _, ?_, ?_, ?_⟩
    · rw [IsFree, hm]
      decide +kernel
    · rw [hm]
      decide +kernel
    · rw [outcome_congr hm]
      decide +kernel

end StackHeap
