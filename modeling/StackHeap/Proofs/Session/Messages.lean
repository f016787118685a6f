import StackHeap.Proofs.Session.Plan
import StackHeap.Proofs.Store.Messages
import StackHeap.Script

/-! # Every message keeps to one line

A command is planned and then carried out.  Planning quotes pieces of the line and names variables in
the memory (`tells_plan`); carrying out an operation names what it was passed and what the memory
holds (`speaks_tell`), and keeps the memory tellable.  So a control character in a message is one of
the line or of the name of the root frame (`Session.clear_run`): none that was written as an escape
sequence gets into it.  In particular there is no line feed, and the transcript has two lines for
every command (`messages_keep_to_one_line`). -/

namespace StackHeap

open Command Number Store Text Typing

/-! ### Operations -/

/-- The names passed to an operation are clear. -/
def Store.Operation.Tellable : Operation → Prop
  | declareScalar _ name _ _ => Clear [] name
  | declareNull _ name type => Clear [] name ∧ Clear [] type.text
  | declareObject _ name category _ => Clear [] name ∧ Clear [] category
  | declareArray _ name type elements =>
    Clear [] name ∧ Clear [] type.text ∧ ∀ e ∈ elements, ElementNamed e
  | declareCopy _ name type given => Clear [] name ∧ Clear [] type.text ∧ Clear [] given
  | assign _ target given => Clear [] target ∧ Clear [] given
  | assignLiteral _ target _ _ => Clear [] target
  | assignNull _ target => Clear [] target
  | assignNew _ target category _ => Clear [] target ∧ Clear [] category
  | enter name => Clear [] name
  | leave => True

namespace Session

variable {source cs : List Char} {m : Memory} {op : Operation}

/-! ### Planning -/

section Errors

variable {ε α : Type} {message : ε → String} {P : α → Prop}

theorem Tells.input {x : Except ε α} {f : ε → InputError} (hx : Tells source message P x)
    (hf : ∀ e, Clear source (message e) → Clear source (f e).message) :
    Tells source CommandError.message P (x.mapError fun e => .input (f e)) := hx.mapError hf

theorem Tells.memory {x : Except MemoryError α} (hx : Tells source MemoryError.message P x) :
    Tells source CommandError.message P (x.mapError .memory) := hx.mapError fun _ he => he

end Errors

theorem tellable_initialization {id : Nat} {name : String} {i : Initializer} (hn : Clear [] name)
    (hi : InitializerNamed i) : (initialization id name i).Tellable := by
  cases i with
  | scalar type value => exact hn
  | array elementType elements => exact ⟨hn, hi.1, hi.2⟩
  | _ => exact ⟨hn, hi⟩

theorem tells_assignment {id : Nat} {target : String} {type : DeclaredType} {side : RightSide}
    (hn : Clear [] target) (ht : Clear [] type.text) (hs : side.ReadFrom source) :
    Tells source CommandError.message Operation.Tellable (assignment id target type side) := by
  cases side with
  | «variable» name => exact ⟨hn, hs⟩
  | null => exact hn
  | construct category attributes =>
      unfold assignment
      dsimp only
      split
      · exact clear_illTyped (clear_between (by decide) hs.1.lift (by decide))
      · have hfields := Tells.input (tells_checkObject hs.1.lift hs.2) fun _ he => clear_illTyped he
        exact hfields.map fun _ _ => ⟨hn, hs.1⟩
  | literal text =>
      unfold assignment
      dsimp only
      split
      · exact clear_incompatible hn ht (clear_append.2 ⟨Clear.lift (by decide), clear_ofList hs⟩)
      · next p _ =>
          have hvalue := Tells.input (f := fun e => .illTyped (.literal e)) (tells_checkAssignable p hs)
            fun _ he => clear_illTyped he
          exact hvalue.map fun _ _ => hn

/-- **What keeps a line from being carried out** before it reaches the memory. -/
theorem tells_plan (hcs : cs ⊆ source) (hm : m.Tellable source) :
    Tells source CommandError.message Operation.Tellable (plan cs m) := by
  refine (Tells.input (tells_classify hcs) fun _ he => clear_malformed he).bind fun kind hk => ?_
  cases kind with
  | enter name => exact hk
  | leave => trivial
  | assignment target value =>
      refine (Tells.memory (tells_lookup hm _ hk.1)).bind fun t ht => ?_
      refine (Tells.input (tells_rightSide hk.2) fun _ he => clear_malformed he).bind fun side hs => ?_
      exact tells_assignment hk.1 ht.type hs
  | declaration =>
      refine (Tells.input (tells_process hcs) fun _ he => he).bind fun d hd => ?_
      exact tellable_initialization hd.1 hd.2

/-! ### Reports -/

theorem clear_collectedText {es : List Entry} (h : ∀ e ∈ es, e.Tellable) :
    Clear source (collectedText (addresses es)) := by
  unfold collectedText
  split
  · exact Clear.lift (by decide)
  · refine clear_append.2 ⟨Clear.lift (by decide), clear_intercalate (Clear.lift (by decide)) ?_⟩
    intro token ht
    obtain ⟨a, ha, rfl⟩ := List.mem_map.1 ht
    obtain ⟨e, he, rfl⟩ := List.mem_map.1 ha
    exact (h e he).address.lift

section Reports

variable {type name value target category frame : String} {a : Address} {es : List Entry}

theorem clear_entered (hn : Clear [] name) (id : Nat) :
    Clear source (Report.entered name id).message := by
  unfold Report.message
  simp (disch := first | decide | assumption) [Clear.lift]

theorem clear_left (hf : Clear source frame) (he : ∀ e ∈ es, e.Tellable) :
    Clear source (Report.left frame (addresses es)).message :=
  clear_append.2 ⟨clear_between (by decide) hf (by decide), clear_collectedText he⟩

theorem clear_declared (ht : Clear [] type) (hn : Clear [] name) (hv : Clear [] value)
    (ha : Clear [] a.token) : Clear source (Report.declared type name value a).message := by
  unfold Report.message
  simp (disch := first | decide | assumption) [Clear.lift]

theorem clear_constructed (hc : Clear [] category) (hn : Clear [] name) (fields : Nat)
    (ha : Clear [] a.token) :
    Clear source (Report.constructed category name fields a).message := by
  have hplural : Clear [] (if fields = 1 then "" else "s") := by split <;> decide
  unfold Report.message
  simp (disch := first | decide | assumption) [Clear.lift]

theorem clear_listed (ht : Clear [] type) (hn : Clear [] name) (elements : Nat)
    (ha : Clear [] a.token) : Clear source (Report.listed type name elements a).message := by
  unfold Report.message
  simp (disch := first | decide | assumption) [Clear.lift]

theorem clear_assigned (ht : Clear [] target) (hv : Clear [] value) (he : ∀ e ∈ es, e.Tellable) :
    Clear source (Report.assigned target value (addresses es)).message := by
  have hcollected : Clear source (collectedText (addresses es)) := clear_collectedText he
  unfold Report.message
  simp (disch := first | decide | assumption) [hcollected, Clear.lift]

theorem clear_assignedNew (ht : Clear [] target) (hc : Clear [] category) (ha : Clear [] a.token) :
    Clear source (Report.assignedNew target category a).message := by
  unfold Report.message
  simp (disch := first | decide | assumption) [Clear.lift]

end Reports

/-- The values passed to a typed operation are no references, so no addresses come with them. -/
theorem references_object_eq_nil {fields : List Field}
    (h : ∀ v ∈ fields.map (·.value), v.referent? = none) :
    (Contents.object fields).references = [] := by
  refine List.eq_nil_iff_forall_not_mem.2 fun a ha => ?_
  obtain ⟨v, hv, hva⟩ := List.mem_filterMap.1 ha
  cases (h v hv).symm.trans hva

/-- **What an operation tells**, be it of what was done or of why nothing was. -/
theorem speaks_tell (ho : op.Tellable) (hw : op.WellTyped) :
    Speaks source (Memory.Tellable source) (fun report => Clear source report.message) (tell op) := by
  have hfree := hw.addressFree
  cases op with
  | declareScalar id name type value =>
      have hv := hfree value (List.mem_singleton.2 rfl)
      have hdisplay := clear_display (.primitive hw)
      exact (speaks_declareScalar id ho type hv).map fun a ha =>
        clear_declared (clear_name type) ho hdisplay ha
  | declareNull id name type =>
      exact (speaks_declareNull id ho.1 ho.2).map fun a ha =>
        clear_declared ho.2 ho.1 (by decide) ha
  | declareObject id name category fields =>
      have hrefs := references_object_eq_nil hfree
      exact (speaks_declareObject id ho.1 ho.2 (by simp [hrefs])).map fun a ha =>
        clear_constructed ho.2 ho.1 _ ha
  | declareArray id name type elements =>
      have helements : ∀ e ∈ elements, ElementNamed e ∧ ∀ v, e = .value v → v.referent? = none := by
        intro e he
        refine ⟨ho.2.2 e he, ?_⟩
        rintro v rfl
        exact hfree v (List.mem_filterMap.2 ⟨_, he, rfl⟩)
      exact (speaks_declareArray id ho.1 ho.2.1 helements).map fun a ha =>
        clear_listed ho.2.1 ho.1 _ ha
  | declareCopy id name type given =>
      exact (speaks_declareCopy id ho.1 ho.2.1 ho.2.2).map fun a ha =>
        clear_declared ho.2.1 ho.1 ho.2.2 ha
  | assign id target given =>
      exact (speaks_assign id ho.1 ho.2).map fun es hes => clear_assigned ho.1 ho.2 hes
  | assignLiteral id target type value =>
      have hv := hfree value (List.mem_singleton.2 rfl)
      have hdisplay := clear_display (.primitive hw)
      have hnone : ∀ e ∈ ([] : List Entry), e.Tellable := List.forall_mem_nil _
      have hreport : Clear source (Report.assigned target value.display (addresses [])).message :=
        clear_assigned ho hdisplay hnone
      exact (speaks_assignLiteral id ho type hv).map fun _ _ => hreport
  | assignNull id target =>
      exact (speaks_assignNull id ho).map fun es hes => clear_assigned ho (by decide) hes
  | assignNew id target category fields =>
      have hrefs := references_object_eq_nil hfree
      exact (speaks_assignNew id ho.1 ho.2 (by simp [hrefs])).map fun a ha =>
        clear_assignedNew ho.1 ho.2 ha
  | enter name => exact (speaks_enter ho).map fun id _ => clear_entered ho id
  | leave => exact speaks_leave.map fun r hr => clear_left hr.1.name hr.2

/-! ### Lines -/

section Lines

variable {s : Session}

/-- **A control character in a message is one of the line or of the name of the root frame**, and the
memory stays tellable. -/
theorem clear_run (hm : s.memory.Tellable source) (line : String) :
    Clear (source ++ line.toList) (s.run line).2.message ∧
      (s.run line).1.memory.Tellable source := by
  have hsource : source ⊆ source ++ line.toList := List.subset_append_left _ _
  have hplan := tells_plan (List.subset_append_right source line.toList) (hm.mono hsource)
  cases hp : plan line.toList s.memory with
  | error e =>
      rw [hp] at hplan
      rw [run_of_plan_error s line hp]
      exact ⟨hplan, hm⟩
  | ok op =>
      rw [hp] at hplan
      have htell := speaks_tell hplan (proper_of_plan hp).wellTyped s.memory hm
      cases ht : tell op s.memory with
      | ok report m =>
          rw [ht] at htell
          simp only [run, execute_of_plan_ok hp, onMemory, ht]
          exact ⟨htell.1.mono hsource, htell.2⟩
      | error e m =>
          rw [ht] at htell
          simp only [run, execute_of_plan_ok hp, onMemory, ht]
          exact ⟨htell.1.mono hsource, htell.2⟩

theorem tellable_runAll (hm : s.memory.Tellable source) (lines : List String) :
    (s.runAll lines).memory.Tellable source := by
  induction lines generalizing s with
  | nil => exact hm
  | cons line lines ih => exact ih (clear_run hm line).2

/-! ### Transcripts -/

theorem transcriptLines_run (s : Session) (line : String) :
    (s.run line).1.transcriptLines =
      s.transcriptLines ++ TranscriptEntry.lines ⟨trimmed line, (s.run line).2⟩ := by
  simp only [transcriptLines, run, List.flatMap_append, List.flatMap_singleton]

theorem length_transcriptLines (s : Session) (lines : List String) :
    (s.runAll lines).transcriptLines.length = s.transcriptLines.length + 2 * lines.length := by
  induction lines generalizing s with
  | nil => rfl
  | cons line lines ih =>
      have hrest := ih (s.run line).1
      rw [transcriptLines_run, List.length_append] at hrest
      rw [runAll, List.foldl_cons, ← runAll, hrest, List.length_cons]
      show s.transcriptLines.length + 2 + 2 * lines.length = _
      omega

/-- What is told of a command on one line stays on two. -/
theorem oneLine_entry {line l : String} {o : Outcome} (hline : OneLine line)
    (ho : OneLine o.message) (hl : l ∈ TranscriptEntry.lines ⟨trimmed line, o⟩) : OneLine l := by
  have htrimmed : OneLine (trimmed line) := by
    unfold OneLine trimmed
    rw [String.toList_ofList]
    exact fun hc => hline (trim_subset _ hc)
  have hverdict : OneLine (if o.ok then "  ok: " else "  error: ") := by cases o.ok <;> decide
  rcases List.mem_cons.1 hl with rfl | hl
  · exact oneLine_append.2 ⟨by decide, htrimmed⟩
  · rw [List.mem_singleton.1 hl]
    exact oneLine_append.2 ⟨hverdict, ho⟩

theorem oneLine_transcriptLines (hm : s.memory.Tellable source) (hs : '\n' ∉ source)
    (ht : ∀ l ∈ s.transcriptLines, OneLine l) {lines : List String}
    (hlines : ∀ line ∈ lines, OneLine line) : ∀ l ∈ (s.runAll lines).transcriptLines, OneLine l := by
  induction lines generalizing s with
  | nil => exact ht
  | cons line lines ih =>
      obtain ⟨hline, hlines⟩ := List.forall_mem_cons.1 hlines
      obtain ⟨hmessage, hkept⟩ := clear_run hm line
      refine ih hkept ?_ hlines
      rw [transcriptLines_run]
      refine List.forall_mem_append.2 ⟨ht, fun l hl => oneLine_entry hline ?_ hl⟩
      exact hmessage.oneLine fun hc => (List.mem_append.1 hc).elim hs hline

end Lines

end Session

/-! ### Lines written out -/

theorem textLines_append {cs : List Char} (h : '\n' ∉ cs) (rest : List Char) :
    textLines (cs ++ '\n' :: rest) = cs :: textLines rest := by
  induction cs with
  | nil => rw [List.nil_append, textLines, if_pos rfl]
  | cons c cs ih =>
      obtain ⟨hc, hcs⟩ := not_or.1 (fun he => h (List.mem_cons.2 he))
      rw [List.cons_append, textLines, if_neg (Ne.symm hc), ih hcs]
      rfl

/-- Lines that are written out, each with a line feed, are the lines of the text. -/
theorem textLines_join {ls : List String} (h : ∀ l ∈ ls, OneLine l) :
    textLines (String.join (ls.map (· ++ "\n"))).toList = ls.map String.toList ++ [[]] := by
  induction ls with
  | nil => rfl
  | cons l ls ih =>
      rw [List.forall_mem_cons] at h
      have hjoin : (String.join ((l :: ls).map (· ++ "\n"))).toList =
          l.toList ++ '\n' :: (String.join (ls.map (· ++ "\n"))).toList := by
        simp [String.toList_join, String.toList_append]
      rw [hjoin, textLines_append h.1, ih h.2]
      rfl

/-- **Every message keeps to one line**, in any session whose root frame has a name on one line and
for any line without a line feed, be it carried out or rejected.  More than that, whatever the line,
all control characters in its message stand in the line or in the name of the root frame; what an
escape sequence stands for is not among them.  So the transcript has two lines for every command. -/
theorem messages_keep_to_one_line (config : Config) (hroot : OneLine config.rootFrame)
    (lines : List String) :
    let s := (Session.new config).runAll lines
    (∀ line, OneLine line → OneLine (s.run line).2.message) ∧
    (∀ line, Clear (config.rootFrame.toList ++ line.toList) (s.run line).2.message) ∧
    ((∀ line ∈ lines, OneLine line) →
      s.transcriptLines.length = 2 * lines.length ∧
      textLines (String.join (s.transcriptLines.map (· ++ "\n"))).toList =
        s.transcriptLines.map String.toList ++ [[]]) := by
  intro s
  have hm : s.memory.Tellable config.rootFrame.toList :=
    Session.tellable_runAll (.new config) lines
  refine ⟨fun line hline => ?_, fun line => (Session.clear_run hm line).1, fun hlines => ⟨?_, ?_⟩⟩
  · exact (Session.clear_run hm line).1.oneLine fun hc => (List.mem_append.1 hc).elim hroot hline
  · exact (Session.length_transcriptLines _ lines).trans (Nat.zero_add _)
  · exact textLines_join (Session.oneLine_transcriptLines (.new config) hroot
      (List.forall_mem_nil _) hlines)

/-- Line feeds in literals, one declared, one quoted from the line and one shown as a token. -/
theorem messages_keep_to_one_line_escaped :
    let s := (Session.new {}).runAll ["String s = \"a\\nb\";", "boolean b = '\\n';"]
    s.transcriptLines = ["> String s = \"a\\nb\";", "  ok: declared String s = \"a\\nb\" at 0x1",
      "> boolean b = '\\n';", "  error: type error: ''\\n'' is not a valid boolean literal"] ∧
    (s.run "leave; '\\n';").2.message =
      "syntax error: unexpected char literal '\\n' after ';' at position 8" ∧
    OneLine (s.run "leave; '\\n';").2.message ∧
    textLines (String.join (s.transcriptLines.map (· ++ "\n"))).toList =
      s.transcriptLines.map String.toList ++ [[]] := by
  have h := messages_keep_to_one_line {} (by decide +kernel)
    ["String s = \"a\\nb\";", "boolean b = '\\n';"]
  exact ⟨by decide +kernel, by decide +kernel, h.1 _ (by decide +kernel), (h.2.2 (by decide +kernel)).2⟩

/-- A tab that is typed may be quoted as it is. -/
example : ¬Clear [] ((Session.new {}).run "boolean b = '\t';").2.message := by decide +kernel

end StackHeap
