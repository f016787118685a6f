import Mathlib.Data.List.TakeDrop

/-! # Texts that can be told apart

A way of printing is unambiguous if a text tells what was printed and where it ends.  If two things
are printed, each is followed by something, and the texts are the same, then so are the things and
what follows them (`Unambiguous`).  How a text may go on is part of the statement: where a number
ends can be told only if no digit comes next.

Runs of characters of one kind are unambiguous (`Unambiguous.run`), and so is what some reader takes
off the front of a text (`Unambiguous.of_reader`).  From there the property is carried over to two
things in a row, to repetitions and to lists with separators.  What is printed need not be characters:
a frame is printed as some lines. -/

namespace StackHeap.Text

variable {α τ : Type} {Valid : α → Prop} {print : α → List τ} {Rest End : List τ → Prop}
  {p : τ → Bool} {front rest : List τ}

/-- A text tells what was printed and where it ends, if it goes on as `Rest` allows. -/
def Unambiguous (Valid : α → Prop) (print : α → List τ) (Rest : List τ → Prop) : Prop :=
  ∀ ⦃a b : α⦄ ⦃r s : List τ⦄, Valid a → Valid b → Rest r → Rest s →
    print a ++ r = print b ++ s → a = b ∧ r = s

/-- What follows does not go on in the same kind. -/
def Stops (p : τ → Bool) (r : List τ) : Prop := ∀ t ∈ r.head?, p t = false

theorem stops_nil : Stops p [] := fun _ ht => by cases ht

theorem stops_of_head? {t : τ} (hr : rest.head? = some t) (h : p t = false) : Stops p rest := by
  intro u hu
  rw [hr] at hu
  rwa [← Option.some.inj hu]

theorem stops_cons {t : τ} (h : p t = false) (r : List τ) : Stops p (t :: r) := stops_of_head? rfl h

/-- A run ends where it stops. -/
theorem takeWhile_append_of_stops (hf : ∀ t ∈ front, p t = true) (hr : Stops p rest) :
    (front ++ rest).takeWhile p = front := by
  rw [List.takeWhile_append_of_pos hf]
  cases rest with
  | nil => rw [List.takeWhile_nil, List.append_nil]
  | cons t rest => rw [List.takeWhile_cons_of_neg (by simp [hr t rfl]), List.append_nil]

theorem span_append_of_stops (hf : ∀ t ∈ front, p t = true) (hr : Stops p rest) :
    (front ++ rest).span p = (front, rest) := by
  rw [List.span_eq_takeWhile_dropWhile, takeWhile_append_of_stops hf hr,
    List.dropWhile_append_of_pos hf]
  cases rest with
  | nil => rw [List.dropWhile_nil]
  | cons t rest => rw [List.dropWhile_cons_of_neg (by simp [hr t rfl])]

namespace Unambiguous

/-- Texts of one kind can be told from what follows. -/
theorem run (hinj : ∀ ⦃a b⦄, Valid a → Valid b → print a = print b → a = b)
    (hp : ∀ a, Valid a → ∀ t ∈ print a, p t = true) : Unambiguous Valid print (Stops p) := by
  intro a b r s ha hb hr hs h
  have hspan := congrArg (List.span p) h
  rw [span_append_of_stops (hp a ha) hr, span_append_of_stops (hp b hb) hs] at hspan
  obtain ⟨hprint, hrest⟩ := Prod.mk.inj hspan
  exact ⟨hinj ha hb hprint, hrest⟩

/-- What a reader finds was printed. -/
theorem of_reader (read : List τ → Option (α × List τ))
    (h : ∀ a r, Valid a → Rest r → read (print a ++ r) = some (a, r)) :
    Unambiguous Valid print Rest := by
  intro a b r s ha hb hr hs he
  have hread := h a r ha hr
  rw [he, h b s hb hs] at hread
  cases hread
  exact ⟨rfl, rfl⟩

/-- Whole texts can be told apart. -/
theorem eq_of_eq (hu : Unambiguous Valid print Rest) (hr : Rest []) {a b : α} (ha : Valid a)
    (hb : Valid b) (h : print a = print b) : a = b :=
  (hu ha hb hr hr (congrArg (· ++ []) h)).1

/-- The same in front of everything makes no difference. -/
theorem prepend (hu : Unambiguous Valid print Rest) (front : List τ) :
    Unambiguous Valid (fun a => front ++ print a) Rest := by
  intro a b r s ha hb hr hs h
  rw [List.append_assoc, List.append_assoc] at h
  exact hu ha hb hr hs (List.append_cancel_left h)

/-- A fixed mark behind everything makes what follows the mark irrelevant. -/
theorem append (hu : Unambiguous Valid print Rest) (mark : List τ) (hm : ∀ r, Rest (mark ++ r)) :
    Unambiguous Valid (fun a => print a ++ mark) fun _ => True := by
  intro a b r s ha hb _ _ h
  rw [List.append_assoc, List.append_assoc] at h
  obtain ⟨he, hr⟩ := hu ha hb (hm r) (hm s) h
  exact ⟨he, List.append_cancel_left hr⟩

/-- Of two things in a row the first can be told from the second. -/
theorem andThen {β : Type} {Valid' : β → Prop} {print' : β → List τ} (hu : Unambiguous Valid print Rest)
    (hw : Unambiguous Valid' print' End) (hnext : ∀ b r, Valid' b → End r → Rest (print' b ++ r)) :
    Unambiguous (fun x : α × β => Valid x.1 ∧ Valid' x.2) (fun x => print x.1 ++ print' x.2) End := by
  rintro ⟨a, b⟩ ⟨a', b'⟩ r s ⟨ha, hb⟩ ⟨ha', hb'⟩ hr hs h
  dsimp only at ha hb ha' hb' h
  rw [List.append_assoc, List.append_assoc] at h
  obtain ⟨rfl, hsecond⟩ := hu ha ha' (hnext b r hb hr) (hnext b' s hb' hs) h
  obtain ⟨rfl, hrest⟩ := hw hb hb' hr hs hsecond
  exact ⟨rfl, hrest⟩

/-- A repetition goes on with its next member or ends. -/
theorem rest_flatMap (hnext : ∀ a r, Valid a → Rest (print a ++ r)) (hrest : ∀ r, End r → Rest r)
    {l : List α} (hl : ∀ a ∈ l, Valid a) {r : List τ} (hr : End r) : Rest (l.flatMap print ++ r) := by
  cases l with
  | nil => exact hrest r hr
  | cons a l =>
      rw [List.flatMap_cons, List.append_assoc]
      exact hnext a _ (hl a List.mem_cons_self)

/-- **One after the other.**  The next one can follow, and is told from the end. -/
theorem flatMap (hu : Unambiguous Valid print Rest) (End : List τ → Prop)
    (hnext : ∀ a r, Valid a → Rest (print a ++ r)) (hrest : ∀ r, End r → Rest r)
    (hend : ∀ a r, Valid a → ¬End (print a ++ r)) :
    Unambiguous (fun l => ∀ a ∈ l, Valid a) (List.flatMap print) End := by
  intro l
  induction l with
  | nil =>
      intro l' r s _ hl' hr hs h
      cases l' with
      | nil => exact ⟨rfl, h⟩
      | cons b l' =>
          rw [List.flatMap_nil, List.nil_append, List.flatMap_cons, List.append_assoc] at h
          subst h
          exact absurd hr (hend b _ (hl' b List.mem_cons_self))
  | cons a l ih =>
      intro l' r s hl hl' hr hs h
      rw [List.forall_mem_cons] at hl
      rw [List.flatMap_cons, List.append_assoc] at h
      cases l' with
      | nil =>
          rw [List.flatMap_nil, List.nil_append] at h
          subst h
          exact absurd hs (hend a _ hl.1)
      | cons b l' =>
          rw [List.forall_mem_cons] at hl'
          rw [List.flatMap_cons, List.append_assoc] at h
          obtain ⟨rfl, hothers⟩ := hu hl.1 hl'.1 (rest_flatMap hnext hrest hl.2 hr)
            (rest_flatMap hnext hrest hl'.2 hs) h
          obtain ⟨rfl, htail⟩ := ih hl.2 hl'.2 hr hs hothers
          exact ⟨rfl, htail⟩

/-- A list with separators is its first element and the others, each behind a separator. -/
theorem intercalate_cons_eq (sep first : List τ) (others : List (List τ)) :
    sep.intercalate (first :: others) = first ++ others.flatMap (sep ++ ·) := by
  induction others generalizing first with
  | nil => simp
  | cons second others ih =>
      rw [List.intercalate_cons_cons, ih, List.flatMap_cons, List.append_assoc, List.append_assoc]

/-- **Lists with separators.**  The end is told from an element and from a separator. -/
theorem list (hu : Unambiguous Valid print Rest) (sep : List τ) (End : List τ → Prop)
    (hsep : ∀ r, Rest (sep ++ r)) (hrest : ∀ r, End r → Rest r)
    (hfirst : ∀ a r, Valid a → ¬End (print a ++ r))
    (hnext : ∀ r, ¬End (sep ++ r)) :
    Unambiguous (fun l : List α => ∀ a ∈ l, Valid a) (fun l => sep.intercalate (l.map print)) End := by
  have hgoes : ∀ a r, Valid a → Rest ((sep ++ print a) ++ r) := by
    intro a r _
    rw [List.append_assoc]
    exact hsep _
  have hothers := (hu.prepend sep).flatMap End hgoes hrest fun a r _ => by
    rw [List.append_assoc]
    exact hnext _
  have hsome := hu.andThen hothers fun l r hl hr => rest_flatMap hgoes hrest hl hr
  have hprint : ∀ (a : α) (l : List α), sep.intercalate ((a :: l).map print) =
      print a ++ l.flatMap (fun a => sep ++ print a) := by
    intro a l
    rw [List.map_cons, intercalate_cons_eq, List.flatMap_map]
  intro l l' r s hl hl' hr hs h
  dsimp only at h
  cases l with
  | nil =>
      cases l' with
      | nil => exact ⟨rfl, h⟩
      | cons b l' =>
          rw [hprint, List.append_assoc] at h
          obtain rfl : r = _ := h
          exact absurd hr (hfirst b _ (hl' b List.mem_cons_self))
  | cons a l =>
      cases l' with
      | nil =>
          rw [hprint, List.append_assoc] at h
          obtain rfl : _ = s := h
          exact absurd hs (hfirst a _ (hl a List.mem_cons_self))
      | cons b l' =>
          rw [hprint, hprint] at h
          obtain ⟨hpair, hrest'⟩ := hsome (a := (a, l)) (b := (b, l')) (List.forall_mem_cons.1 hl)
            (List.forall_mem_cons.1 hl') hr hs h
          cases hpair
          exact ⟨rfl, hrest'⟩

end Unambiguous

/-! ### Lines -/

/-- A text without a line feed. -/
def OneLine (s : String) : Prop := '\n' ∉ s.toList

instance (s : String) : Decidable (OneLine s) := inferInstanceAs (Decidable ('\n' ∉ s.toList))

theorem oneLine_append {s t : String} : OneLine (s ++ t) ↔ OneLine s ∧ OneLine t := by
  simp only [OneLine, String.toList_append, List.mem_append, not_or]

/-- Where lines end can be told. -/
theorem unambiguous_line :
    Unambiguous OneLine (fun s : String => s.toList ++ ['\n']) fun _ => True := by
  have hrun : Unambiguous OneLine String.toList (Stops (· != '\n')) :=
    .run (fun _ _ _ _ h => String.toList_inj.1 h) fun _ hs _ hc => bne_iff_ne.2 fun h => hs (h ▸ hc)
  exact hrun.append ['\n'] fun r => stops_cons rfl r

/-- **A text determines its lines.** -/
theorem lines_of_join {ls ls' : List String} (h : ∀ s ∈ ls, OneLine s) (h' : ∀ s ∈ ls', OneLine s)
    (ht : String.join (ls.map (· ++ "\n")) = String.join (ls'.map (· ++ "\n"))) : ls = ls' := by
  have hlines := unambiguous_line.flatMap (· = []) (fun _ _ _ => trivial) (fun _ _ => trivial)
    fun s r _ he => by simp at he
  refine hlines.eq_of_eq rfl h h' ?_
  have hl := congrArg String.toList ht
  rwa [String.toList_join, String.toList_join, List.flatMap_map, List.flatMap_map,
    funext fun s : String => (String.toList_append : (s ++ "\n").toList = s.toList ++ ['\n'])] at hl

end StackHeap.Text
