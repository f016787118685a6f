import StackHeap.Proofs.Snapshot.Places

/-! # The text of a snapshot determines it

A snapshot is legible if its names are identifiers, its types can be named, its addresses look like
tokens and its places show values of their types (`Snapshot.Legible`).  The name of a frame may be
any text on one line, as it ends its line.

The text of a legible snapshot is taken apart in three steps: into lines, which contain no line feeds
(`Legible.oneLine`); into frames and the heap, told apart by how far their lines are indented; and
each line into its parts, from the left (`Snapshot.text_injOn`). -/

namespace StackHeap

open Command Number Store Text

/-! ### Legible places -/

structure Field.Legible (f : Field) : Prop where
  name : IsIdentifier f.name
  holds : f.type.Holds f.value

inductive Store.Contents.Legible : DeclaredType → Contents → Prop where
  | object {category : String} {fields : List Field} (h : ∀ f ∈ fields, f.Legible) :
      Legible (.object category) (.object fields)
  | array {element : DeclaredType} {values : List Value} (h : ∀ v ∈ values, Shows element v) :
      Legible (.array element) (.array values)

structure EntryView.Legible (e : EntryView) : Prop where
  address : e.address.Plain
  type : e.type.Legible
  contents : e.contents.Legible e.type

structure Store.Slot.Legible (x : Slot) : Prop where
  address : x.address.Plain
  name : IsIdentifier x.name
  type : x.type.Legible
  value : Shows x.type x.value

structure Store.Frame.Legible (f : Frame) : Prop where
  name : OneLine f.name
  slots : ∀ x ∈ f.slots, x.Legible

/-- Everything in a snapshot can be read off from its text. -/
structure Snapshot.Legible (s : Snapshot) : Prop where
  frames : ∀ f ∈ s.frames, f.Legible
  heap : ∀ e ∈ s.heap, e.Legible

/-! ### Parts of a line -/

theorem Field.toList_text (f : Field) : f.text.toList = f.type.name.toList ++ ' ' :: (f.name.toList ++
    ' ' :: '=' :: ' ' :: f.value.display.toList) := by
  simp [Field.text, String.toList_append]

theorem unambiguous_field :
    Unambiguous Field.Legible (fun f => f.text.toList) (Stops isNumberChar) := by
  intro f g r s hf hg hr hs h
  simp only [Field.toList_text, List.append_assoc, List.cons_append] at h
  obtain ⟨htype, h₁⟩ := unambiguous_type (a := .primitive f.type) (b := .primitive g.type) trivial
    trivial (stops_cons rfl _) (stops_cons rfl _) h
  obtain ⟨hname, h₂⟩ := unambiguous_name hf.name hg.name (stops_cons rfl _) (stops_cons rfl _)
    (List.cons.inj h₁).2
  obtain ⟨name, type, value⟩ := f
  obtain ⟨name', type', value'⟩ := g
  obtain rfl : name = name' := hname
  obtain rfl : type = type' := DeclaredType.primitive.inj htype
  obtain ⟨hvalue, hrest⟩ := unambiguous_display _ (.primitive hf.holds) (.primitive hg.holds) hr hs
    (List.cons.inj (List.cons.inj (List.cons.inj h₂).2).2).2
  obtain rfl : value = value' := hvalue
  exact ⟨rfl, hrest⟩

/-- A field starts with the keyword of its type. -/
theorem Field.head?_text_ne (f : Field) (r : List Char) : (f.text.toList ++ r).head? ≠ some ' ' := by
  rw [Field.toList_text]
  cases f.type <;> exact fun h => by cases h

theorem Store.Contents.toList_text_object (fields : List Field) :
    (Contents.object fields).text.toList = '\x7b' :: ' ' ::
      ([',', ' '].intercalate (fields.map fun f => f.text.toList) ++ [' ', '\x7d']) := by
  simp [Contents.text, String.toList_append, String.toList_intercalate, Function.comp_def]

theorem Store.Contents.toList_text_array (values : List Value) :
    (Contents.array values).text.toList = '[' ::
      ([',', ' '].intercalate (values.map fun v => v.display.toList) ++ [']']) := by
  simp [Contents.text, String.toList_append, String.toList_intercalate, Function.comp_def]

/-- At a known type the text of an entry's contents tells the contents. -/
theorem Store.Contents.text_injOn {t : DeclaredType} {c d : Contents} (hc : c.Legible t)
    (hd : d.Legible t) (h : c.text = d.text) : c = d := by
  have hl := congrArg String.toList h
  cases hc with
  | @object _ fields hf =>
      cases hd with
      | @object _ fields' hf' =>
          rw [toList_text_object, toList_text_object] at hl
          have hlist := unambiguous_field.list [',', ' ']
            (fun r => r.head? = some ' ') (fun _ => stops_cons rfl _)
            (fun r hr => stops_of_head? hr rfl)
            (fun f r _ => f.head?_text_ne r) (fun r hr => by cases hr)
          have hfields := hlist hf hf' rfl rfl (List.cons.inj (List.cons.inj hl).2).2
          rw [hfields.1]
  | @array element values hv =>
      cases hd with
      | @array _ values' hv' =>
          rw [toList_text_array, toList_text_array] at hl
          have hlist := (unambiguous_display element).list [',', ' ']
            (fun r => r.head? = some ']') (fun _ => stops_cons rfl _)
            (fun r hr => stops_of_head? hr rfl)
            (fun v r hv => head?_display_ne hv r) (fun r hr => by cases hr)
          have hvalues := hlist hv hv' rfl rfl (List.cons.inj hl).2
          rw [hvalues.1]

/-! ### Lines -/

/-- A line starts with an address and a type. -/
theorem place_append_inj {a b : Address} {t u : DeclaredType} {r s : List Char} (ha : a.Plain)
    (hb : b.Plain) (ht : t.Legible) (hu : u.Legible)
    (h : a.token.toList ++ ' ' :: (t.text.toList ++ ' ' :: r) =
      b.token.toList ++ ' ' :: (u.text.toList ++ ' ' :: s)) : a = b ∧ t = u ∧ r = s := by
  obtain ⟨haddress, h₁⟩ := unambiguous_token ha hb (stops_cons rfl _) (stops_cons rfl _) h
  obtain ⟨htype, h₂⟩ := unambiguous_type ht hu (stops_cons rfl _) (stops_cons rfl _)
    (List.cons.inj h₁).2
  exact ⟨haddress, htype, (List.cons.inj h₂).2⟩

theorem Store.Slot.toList_text (x : Slot) : x.text.toList = x.address.token.toList ++ ' ' ::
    (x.type.text.toList ++ ' ' :: (x.name.toList ++ ' ' ::
      ((if x.type.isReference then ['-', '>', ' '] else ['=', ' ']) ++ x.value.display.toList))) := by
  unfold Slot.text
  cases x.type.isReference <;> simp [String.toList_append]

/-- **The line of a slot tells the slot.** -/
theorem Store.Slot.text_injOn {x y : Slot} (hx : x.Legible) (hy : y.Legible) (h : x.text = y.text) :
    x = y := by
  have hl := congrArg String.toList h
  rw [toList_text, toList_text] at hl
  obtain ⟨haddress, htype, h₁⟩ := place_append_inj hx.address hy.address hx.type hy.type hl
  obtain ⟨hname, h₂⟩ := unambiguous_name hx.name hy.name (stops_cons rfl _) (stops_cons rfl _) h₁
  have h₃ := (List.cons.inj h₂).2
  rw [htype] at h₃
  have hvalue := (unambiguous_display y.type).eq_of_eq stops_nil (htype ▸ hx.value) hy.value
    (List.append_cancel_left h₃)
  obtain ⟨address, name, type, value⟩ := x
  obtain ⟨address', name', type', value'⟩ := y
  cases haddress
  cases htype
  cases hname
  cases hvalue
  rfl

/-- A place starts with its address. -/
theorem Store.Slot.head?_text {x : Slot} (hx : x.Legible) : x.text.toList.head? = some '0' := by
  rw [toList_text, hx.address.head?_append]

theorem EntryView.toList_text (e : EntryView) : e.text.toList = e.address.token.toList ++ ' ' ::
    (e.type.text.toList ++ ' ' :: '(' :: 'r' :: 'e' :: 'f' :: 's' :: ':' :: ' ' ::
      (decimalDigits e.refs ++ ')' :: ' ' :: e.contents.text.toList)) := by
  simp [EntryView.text, naturalText, String.toList_append]

theorem EntryView.head?_text {e : EntryView} (he : e.Legible) : e.text.toList.head? = some '0' := by
  rw [toList_text, he.address.head?_append]

/-- Nothing that starts with an address is the note on an empty list. -/
theorem append_ne_note (front : String) {s : String} (h : s.toList.head? = some '0') :
    front ++ s ≠ front ++ "(empty)" := by
  intro he
  rw [(String.append_right_inj _).1 he] at h
  cases h

theorem unambiguous_natural :
    Unambiguous (fun _ : Nat => True) decimalDigits (Stops Char.isDigit) :=
  .run (fun _ _ _ _ h => decimalDigits_injective h) fun _ _ _ => isDigit_of_mem_decimalDigits

/-- **The line of an entry tells the entry.** -/
theorem EntryView.text_injOn {e d : EntryView} (he : e.Legible) (hd : d.Legible)
    (h : e.text = d.text) : e = d := by
  have hl := congrArg String.toList h
  rw [toList_text, toList_text] at hl
  obtain ⟨haddress, htype, h₁⟩ := place_append_inj he.address hd.address he.type hd.type hl
  simp only [List.cons.injEq, true_and] at h₁
  obtain ⟨hrefs, h₂⟩ := unambiguous_natural trivial trivial (stops_cons rfl _) (stops_cons rfl _) h₁
  simp only [List.cons.injEq, true_and] at h₂
  have hcontents := Contents.text_injOn (htype ▸ he.contents) hd.contents (String.toList_inj.1 h₂)
  obtain ⟨address, type, refs, contents⟩ := e
  obtain ⟨address', type', refs', contents'⟩ := d
  cases haddress
  cases htype
  cases hrefs
  cases hcontents
  rfl

/-! ### One line -/

theorem Field.Legible.clear {f : Field} (hf : f.Legible) : Clear [] f.text := by
  simp only [Field.text, clear_append]
  exact ⟨⟨⟨⟨clear_name f.type, by decide⟩, clear_of_isIdentifier hf.name⟩, by decide⟩,
    clear_display (.primitive hf.holds)⟩

theorem Store.Contents.Legible.clear {c : Contents} {t : DeclaredType} (hc : c.Legible t) :
    Clear [] c.text := by
  cases hc with
  | object hf =>
      refine clear_between (by decide) (clear_intercalate (by decide) ?_) (by decide)
      exact List.forall_mem_map.2 fun f hmem => (hf f hmem).clear
  | array hv =>
      refine clear_between (by decide) (clear_intercalate (by decide) ?_) (by decide)
      exact List.forall_mem_map.2 fun v hmem => clear_display (hv v hmem)

theorem Store.Slot.Legible.clear {x : Slot} (hx : x.Legible) : Clear [] x.text := by
  have harrow : Clear [] (if x.type.isReference then " -> " else " = ") := by
    cases x.type.isReference <;> decide
  simp only [Slot.text, clear_append]
  exact ⟨⟨⟨⟨⟨⟨hx.address.clear, by decide⟩, hx.type.clear⟩, by decide⟩,
    clear_of_isIdentifier hx.name⟩, harrow⟩, clear_display hx.value⟩

theorem EntryView.Legible.clear {e : EntryView} (he : e.Legible) : Clear [] e.text := by
  simp only [EntryView.text, clear_append]
  exact ⟨⟨⟨⟨⟨⟨he.address.clear, by decide⟩, he.type.clear⟩, by decide⟩, clear_naturalText _⟩,
    by decide⟩, he.contents.clear⟩

/-- The lines of a list. -/
theorem oneLine_of_mem_lines {α : Type} {Valid : α → Prop} {line : α → String} {empty s : String}
    (hline : ∀ a, Valid a → OneLine (line a)) (he : OneLine empty) {l : List α}
    (hl : ∀ a ∈ l, Valid a) (hs : s ∈ if l.isEmpty then [empty] else l.map line) : OneLine s := by
  split at hs
  · rw [List.mem_singleton.1 hs]
    exact he
  · obtain ⟨a, ha, rfl⟩ := List.mem_map.1 hs
    exact hline a (hl a ha)

theorem Store.Frame.Legible.oneLine {f : Frame} (hf : f.Legible) : ∀ s ∈ f.lines, OneLine s := by
  intro s hs
  rcases List.mem_cons.1 hs with rfl | hs
  · simp only [Frame.heading, oneLine_append]
    exact ⟨by decide, ⟨⟨by decide, oneLine_of_clear (clear_naturalText _)⟩, by decide⟩, hf.name⟩
  · exact oneLine_of_mem_lines
      (fun x hx => oneLine_append.2 ⟨by decide, oneLine_of_clear (Slot.Legible.clear hx)⟩)
      (by decide) hf.slots hs

theorem Snapshot.Legible.oneLine {s : Snapshot} (hs : s.Legible) : ∀ l ∈ s.lines, OneLine l := by
  intro l hl
  simp only [Snapshot.lines, List.mem_append, List.mem_singleton] at hl
  rcases hl with ((rfl | hl) | rfl) | hl
  · decide
  · obtain ⟨f, hf, hl⟩ := List.mem_flatMap.1 hl
    exact (hs.frames f hf).oneLine l hl
  · decide
  · exact oneLine_of_mem_lines
      (fun e he => oneLine_append.2 ⟨by decide, oneLine_of_clear (EntryView.Legible.clear he)⟩)
      (by decide) hs.heap hl

/-! ### Frames and the heap -/

/-- A list has a line for each of its members, or one that says that it is empty. -/
theorem eq_of_lines {α : Type} {Valid : α → Prop} {line : α → String} {empty : String}
    (hinj : ∀ ⦃a b⦄, Valid a → Valid b → line a = line b → a = b)
    (hne : ∀ a, Valid a → line a ≠ empty) {l l' : List α} (hl : ∀ a ∈ l, Valid a)
    (hl' : ∀ a ∈ l', Valid a)
    (h : (if l.isEmpty then [empty] else l.map line) =
      if l'.isEmpty then [empty] else l'.map line) : l = l' := by
  have hone : Unambiguous Valid (fun a => [line a]) fun _ => True := by
    intro a b r s ha hb _ _ h
    obtain ⟨hab, hr⟩ := List.cons.inj h
    exact ⟨hinj ha hb hab, hr⟩
  have hlist := hone.flatMap (· = []) (fun _ _ _ => trivial) (fun _ _ => trivial)
    fun a r _ he => by cases he
  cases l with
  | nil =>
      cases l' with
      | nil => rfl
      | cons b l' => exact absurd (List.cons.inj h).1.symm (hne b (hl' b List.mem_cons_self))
  | cons a l =>
      cases l' with
      | nil => exact absurd (List.cons.inj h).1 (hne a (hl a List.mem_cons_self))
      | cons b l' =>
          refine hlist.eq_of_eq rfl hl hl' ?_
          rw [← List.map_eq_flatMap, ← List.map_eq_flatMap]
          exact h

/-- The lines within a frame are indented by four blanks. -/
def isInner (s : String) : Bool := [' ', ' ', ' ', ' '].isPrefixOf s.toList

theorem isInner_append (s : String) : isInner ("    " ++ s) = true := by
  simp [isInner, String.toList_append]

theorem isInner_of_mem {l : List Slot} {s : String}
    (hs : s ∈ if l.isEmpty then ["    (empty)"] else l.map fun x => "    " ++ x.text) :
    isInner s = true := by
  split at hs
  · rw [List.mem_singleton.1 hs]
    rfl
  · obtain ⟨x, -, rfl⟩ := List.mem_map.1 hs
    exact isInner_append _

theorem toList_heading (f : Frame) : ("  " ++ f.heading).toList =
    ' ' :: ' ' :: '#' :: (decimalDigits f.id ++ ' ' :: f.name.toList) := by
  simp [Frame.heading, naturalText, String.toList_append]

theorem isInner_heading (f : Frame) : isInner ("  " ++ f.heading) = false := by
  rw [isInner, toList_heading]
  rfl

/-- **The lines below the heading of a frame tell its slots.** -/
theorem unambiguous_slots : Unambiguous (fun l : List Slot => ∀ x ∈ l, x.Legible)
    (fun l => if l.isEmpty then ["    (empty)"] else l.map fun x => "    " ++ x.text)
    (Stops isInner) := by
  refine .run (fun l l' hl hl' h => eq_of_lines ?_ ?_ hl hl' h) fun _ _ _ hs => isInner_of_mem hs
  · exact fun x y hx hy h => Slot.text_injOn hx hy ((String.append_right_inj _).1 h)
  · exact fun x hx => append_ne_note "    " (Slot.head?_text hx)

/-- **The lines of a frame tell the frame.** -/
theorem unambiguous_frame : Unambiguous Frame.Legible Frame.lines (Stops isInner) := by
  intro f g r s hf hg hr hs h
  obtain ⟨hheading, hbody⟩ := List.cons.inj h
  have hl := congrArg String.toList hheading
  rw [toList_heading, toList_heading] at hl
  simp only [List.cons.injEq, true_and] at hl
  obtain ⟨hid, hname⟩ := unambiguous_natural trivial trivial (stops_cons rfl _) (stops_cons rfl _) hl
  obtain ⟨hslots, hrest⟩ := unambiguous_slots hf.slots hg.slots hr hs hbody
  obtain ⟨id, name, slots⟩ := f
  obtain ⟨id', name', slots'⟩ := g
  obtain rfl : id = id' := hid
  obtain rfl : name = name' := String.toList_inj.1 (List.cons.inj hname).2
  obtain rfl : slots = slots' := hslots
  exact ⟨rfl, hrest⟩

theorem Snapshot.lines_eq (s : Snapshot) : s.lines = "stack:" :: (s.frames.flatMap Frame.lines ++
    "heap:" :: if s.heap.isEmpty then ["  (empty)"] else s.heap.map fun e => "  " ++ e.text) := by
  simp [Snapshot.lines]

/-- **The text of a legible snapshot determines it.** -/
theorem Snapshot.text_injOn {s t : Snapshot} (hs : s.Legible) (ht : t.Legible)
    (h : s.text = t.text) : s = t := by
  have hlines := lines_of_join hs.oneLine ht.oneLine h
  rw [lines_eq, lines_eq] at hlines
  have hframes := unambiguous_frame.flatMap (fun r => r.head? = some "heap:")
    (fun f r _ => stops_cons (isInner_heading f) _)
    (fun r hr => stops_of_head? hr (by decide))
    (fun f r _ he => by
      have hl := congrArg String.toList (Option.some.inj he)
      rw [toList_heading] at hl
      cases hl)
  obtain ⟨hf, hheap⟩ := hframes hs.frames ht.frames rfl rfl (List.cons.inj hlines).2
  have he := eq_of_lines
    (fun e d he hd h => EntryView.text_injOn he hd ((String.append_right_inj _).1 h))
    (fun e he => append_ne_note "  " (EntryView.head?_text he)) hs.heap ht.heap
    (List.cons.inj hheap).2
  obtain ⟨frames, heap⟩ := s
  obtain ⟨frames', heap'⟩ := t
  obtain rfl : frames = frames' := hf
  obtain rfl : heap = heap' := he
  rfl

end StackHeap
