import StackHeap.Proofs.Command.Slices
import StackHeap.Proofs.Command.Splitting

/-! # Readers and lexemes

What the readers of tokens take, told by lexemes alone.  A reader works on the tokens that are left
of a text (`Remain`), so the texts it hands on are parts of that text and have the lexemes of the
tokens it took.

* **Values** (`IsValue`) run up to a semicolon or the end, without an equals sign outside brackets.
* **Bracketed parts** (`Nested`) run to the bracket that closes the first one; only brackets of its
  kind count.
* **Attributes** (`IsAttribute`) are a name, with or without a type, an equals sign and a value; a
  list of them (`IsAttributeList`) is cut at the commas outside all brackets.

Each reader has one lemma for what it accepts and, where it returns a text, one for what it then
finds (`…_sound`) and one for when it does (`…_complete`). -/

namespace StackHeap.Command

open Text Typing

variable {cs : List Char} {t : Token} {ts taken rest : List Token} {l : Lexeme}
  {ls ls' vs : List Lexeme} {name what : String} {span : Span}

theorem Lexes.ne_finish (h : Lexes cs ls) : ∀ l ∈ ls, l ≠ .finish := by
  induction h with
  | nil => exact fun l hl => absurd hl List.not_mem_nil
  | blank _ _ ih => exact ih
  | lexeme hs _ ih =>
      intro l hl
      rcases List.mem_cons.1 hl with rfl | hl
      · exact hs.ne_finish
      · exact ih l hl

/-! ### What is left -/

/-- The tokens `ts` are the last ones of the text `cs`, with lexemes `ls` before the end. -/
structure Remain (cs : List Char) (ts : List Token) (ls : List Lexeme) : Prop where
  suffix : ∃ pre, tokenize cs = .ok (pre ++ ts)
  lexemes : ts.map Token.lexeme = ls ++ [.finish]

theorem Lexes.exists_readTokens (h : Lexes cs ls) : ∃ ts, readTokens cs = .ok ts ∧ Remain cs ts ls := by
  obtain ⟨ts, hts, hl⟩ := h.exists_tokensFrom 0
  exact ⟨ts, mapError_eq_ok.2 hts, ⟨[], hts⟩, hl⟩

theorem exists_remain_of_readTokens (h : readTokens cs = .ok ts) : ∃ ls, Lexes cs ls ∧ Remain cs ts ls := by
  have hts := mapError_eq_ok.1 h
  obtain ⟨ls, hl, hmap⟩ := lexes_of_tokensFrom hts
  exact ⟨ls, hl, ⟨[], hts⟩, hmap⟩

namespace Remain

theorem ne_finish (h : Remain cs ts ls) : ∀ l ∈ ls, l ≠ .finish := by
  obtain ⟨pre, hpre⟩ := h.suffix
  obtain ⟨all, hall, hmap⟩ := lexes_of_tokensFrom hpre
  rw [List.map_append, h.lexemes, ← List.append_assoc] at hmap
  intro l hl
  refine hall.ne_finish l ?_
  rw [← List.append_cancel_right hmap]
  exact List.mem_append_right _ hl

theorem ne_nil (h : Remain cs ts ls) : ts ≠ [] := by
  rintro rfl
  simpa using h.lexemes

/-- The lexemes in front are those of the tokens in front. -/
theorem exists_append (h : Remain cs ts (vs ++ ls)) :
    ∃ taken rest, ts = taken ++ rest ∧ taken.map Token.lexeme = vs ∧ Remain cs rest ls := by
  have hmap := h.lexemes
  rw [List.append_assoc] at hmap
  obtain ⟨taken, rest, rfl, ht, hr⟩ := List.map_eq_append_iff.1 hmap
  obtain ⟨pre, hpre⟩ := h.suffix
  exact ⟨taken, rest, rfl, ht, ⟨pre ++ taken, by rw [hpre, List.append_assoc]⟩, hr⟩

/-- The tokens behind some that are not the end. -/
theorem of_append (h : Remain cs (taken ++ rest) ls) (hn : Lexeme.finish ∉ taken.map Token.lexeme)  :
    ∃ ls', ls = taken.map Token.lexeme ++ ls' ∧ Remain cs rest ls' := by
  induction taken generalizing ls with
  | nil => exact ⟨ls, rfl, h⟩
  | cons t taken ih =>
      rw [List.map_cons, List.mem_cons, not_or] at hn
      cases ls with
      | nil => exact absurd (List.cons.inj h.lexemes).1.symm hn.1
      | cons l ls =>
          obtain ⟨hl, hmap⟩ := List.cons.inj h.lexemes
          obtain ⟨pre, hpre⟩ := h.suffix
          obtain ⟨ls', rfl, hrest⟩ := ih ⟨⟨pre ++ [t], by rw [hpre]; simp⟩, hmap⟩ hn.2
          exact ⟨ls', by rw [List.map_cons, hl, List.cons_append], hrest⟩

theorem peek_nil (h : Remain cs ts []) : (peek ts).lexeme = .finish := by
  cases ts with
  | nil => exact absurd rfl h.ne_nil
  | cons t ts => exact (List.cons.inj h.lexemes).1

theorem peek_cons (h : Remain cs ts (l :: ls)) : (peek ts).lexeme = l := by
  cases ts with
  | nil => exact absurd rfl h.ne_nil
  | cons t ts => exact (List.cons.inj h.lexemes).1

theorem tail (h : Remain cs ts (l :: ls)) : Remain cs ts.tail ls := by
  cases ts with
  | nil => exact absurd rfl h.ne_nil
  | cons t ts =>
      obtain ⟨pre, hpre⟩ := h.suffix
      exact ⟨⟨pre ++ [t], by rw [hpre]; simp⟩, (List.cons.inj h.lexemes).2⟩

/-- The end is the next token if nothing else is left. -/
theorem peek_eq_finish_iff (h : Remain cs ts ls) : (peek ts).lexeme = .finish ↔ ls = [] := by
  cases ls with
  | nil => exact ⟨fun _ => rfl, fun _ => h.peek_nil⟩
  | cons l ls =>
      rw [h.peek_cons]
      exact ⟨fun hl => absurd hl (h.ne_finish l List.mem_cons_self), fun hl => by cases hl⟩

/-- Another lexeme is the next one if it is the first of those left. -/
theorem peek_eq_iff (h : Remain cs ts ls) (hl : l ≠ .finish) :
    (peek ts).lexeme = l ↔ ∃ ls', ls = l :: ls' := by
  cases ls with
  | nil =>
      rw [h.peek_nil]
      exact ⟨fun he => absurd he.symm hl, fun ⟨_, he⟩ => by cases he⟩
  | cons k ls =>
      rw [h.peek_cons]
      exact ⟨fun he => ⟨ls, by rw [he]⟩, fun ⟨_, he⟩ => (List.cons.inj he).1⟩

/-! ### Single tokens -/

theorem identifier_eq_ok_iff (h : Remain cs ts ls) :
    identifier what ts = .ok (name, rest) ↔ (∃ ls', ls = .ident name :: ls') ∧ rest = ts.tail := by
  rw [← h.peek_eq_iff (by simp)]
  unfold identifier
  split
  · next name' hp =>
      rw [hp, Except.ok.injEq, Prod.mk.injEq, Lexeme.ident.injEq]
      exact and_congr_right fun _ => eq_comm
  · next hn => exact ⟨fun he => (by cases he), fun he => absurd he.1 (hn name)⟩

theorem mark_eq_ok_iff (h : Remain cs ts ls) {m : Mark} :
    mark m what ts = .ok (span, rest) ↔
      (∃ ls', ls = .mark m :: ls') ∧ span = (peek ts).span ∧ rest = ts.tail := by
  rw [← h.peek_eq_iff (by simp)]
  unfold mark
  split
  · next hp => simp only [hp, true_and, Except.ok.injEq, Prod.mk.injEq, eq_comm]
  · next hn => exact ⟨fun he => (by cases he), fun he => absurd he.1 hn⟩

/-- A line ends with a semicolon and nothing after it. -/
theorem lineEnd_eq_ok_iff (h : Remain cs ts ls) :
    lineEnd ts = .ok () ↔ ls = [.mark .semicolon] := by
  unfold lineEnd
  rw [bind_eq_ok]
  constructor
  · rintro ⟨⟨s, rest⟩, hm, he⟩
    obtain ⟨⟨ls', rfl⟩, -, rfl⟩ := h.mark_eq_ok_iff.1 hm
    dsimp only at he
    split at he
    · next hp => rw [h.tail.peek_eq_finish_iff.1 hp]
    · cases he
  · rintro rfl
    refine ⟨_, h.mark_eq_ok_iff.2 ⟨⟨[], rfl⟩, rfl, rfl⟩, ?_⟩
    exact if_pos h.tail.peek_nil

end Remain

/-! ### Values -/

/-- The lexemes in front of which a value ends. -/
def Lexeme.EndsValue (l : Lexeme) : Prop := l = .finish ∨ l = .mark .semicolon

instance (l : Lexeme) : Decidable l.EndsValue := inferInstanceAs (Decidable (_ ∨ _))

/-- The lexemes of a value, from a depth on: none ends it, and no equals sign stands at depth
zero. -/
def IsValue (depth : Nat) : List Lexeme → Prop
  | [] => True
  | l :: ls => ¬l.EndsValue ∧ ¬(l = .mark .equals ∧ depth = 0) ∧ IsValue (l.depthAfter depth) ls

theorem valueTokens_cons (depth : Nat) (t : Token) (ts : List Token) :
    valueTokens depth (t :: ts) =
      if t.lexeme.EndsValue then .ok ([], t :: ts)
      else if t.lexeme = .mark .equals ∧ depth = 0 then .error (.chainedAssignment t.span)
      else (valueTokens (t.lexeme.depthAfter depth) ts).map fun r => (t :: r.1, r.2) := by
  obtain ⟨l, s⟩ := t
  rw [valueTokens.eq_def]
  dsimp only
  rcases l with _ | _ | _ | _ | _ | m | _
  case mark => rcases m with _ | _ | _ | _ | _ | b | b <;> simp [Lexeme.EndsValue, Lexeme.depthAfter]
  all_goals simp [Lexeme.EndsValue, Lexeme.depthAfter]

theorem valueTokens_eq_ok_iff {depth : Nat} :
    valueTokens depth ts = .ok (taken, rest) ↔
      ts = taken ++ rest ∧ IsValue depth (taken.map Token.lexeme) ∧
        ∀ t ∈ rest.head?, t.lexeme.EndsValue := by
  induction ts generalizing depth taken with
  | nil =>
      rw [valueTokens, Except.ok.injEq, Prod.mk.injEq, eq_comm (a := ([] : List Token)) (b := taken ++ rest),
        List.append_eq_nil_iff]
      constructor
      · rintro ⟨rfl, rfl⟩
        exact ⟨⟨rfl, rfl⟩, trivial, fun t ht => by cases ht⟩
      · rintro ⟨⟨rfl, rfl⟩, -⟩
        exact ⟨rfl, rfl⟩
  | cons t ts ih =>
      rw [valueTokens_cons]
      split
      · next he =>
          rw [Except.ok.injEq, Prod.mk.injEq]
          constructor
          · rintro ⟨rfl, rfl⟩
            exact ⟨rfl, trivial, fun u hu => Option.some.inj hu ▸ he⟩
          · rintro ⟨hts, hv, -⟩
            cases taken with
            | nil => exact ⟨rfl, hts⟩
            | cons u taken =>
                rw [← (List.cons.inj hts).1] at hv
                exact absurd he hv.1
      · next he =>
          split
          · next hq =>
              refine ⟨fun h => (by cases h), ?_⟩
              rintro ⟨hts, hv, hr⟩
              cases taken with
              | nil => exact absurd (hr t (by rw [← hts.trans (List.nil_append rest)]; rfl)) he
              | cons u taken =>
                  rw [← (List.cons.inj hts).1] at hv
                  exact absurd hq hv.2.1
          · next hq =>
              rw [map_eq_ok]
              constructor
              · rintro ⟨⟨taken', rest'⟩, hr, heq⟩
                obtain ⟨rfl, rfl⟩ := Prod.mk.inj heq
                obtain ⟨rfl, hv, hend⟩ := ih.1 hr
                exact ⟨rfl, ⟨he, hq, hv⟩, hend⟩
              · rintro ⟨hts, hv, hr⟩
                cases taken with
                | nil => exact absurd (hr t (by rw [← hts.trans (List.nil_append rest)]; rfl)) he
                | cons u taken =>
                    obtain ⟨rfl, rfl⟩ := List.cons.inj hts
                    exact ⟨_, ih.2 ⟨rfl, hv.2.2, hr⟩, rfl⟩

theorem value_eq_ok_iff : value ts = .ok (taken, span, rest) ↔
    valueTokens 0 ts = .ok (taken, rest) ∧ spanOf? taken = some span := by
  unfold value
  rw [bind_eq_ok]
  constructor
  · rintro ⟨⟨taken', rest'⟩, hv, h⟩
    dsimp only at h
    split at h
    · next hs =>
        cases h
        exact ⟨hv, hs⟩
    · cases h
  · rintro ⟨hv, hs⟩
    refine ⟨_, hv, ?_⟩
    dsimp only
    rw [hs]

theorem IsValue.ne_finish {depth : Nat} (h : IsValue depth vs) : Lexeme.finish ∉ vs := by
  induction vs generalizing depth with
  | nil => exact List.not_mem_nil
  | cons l vs ih =>
      rw [List.mem_cons, not_or]
      exact ⟨fun hl => h.1 (.inl hl.symm), ih h.2.2⟩

namespace Remain

/-- What is left behind a value: nothing, or a semicolon first. -/
theorem head?_eq_semicolon (h : Remain cs ts ls) (he : ∀ t ∈ ts.head?, t.lexeme.EndsValue) :
    ∀ l ∈ ls.head?, l = .mark .semicolon := by
  cases ls with
  | nil => exact fun l hl => by cases hl
  | cons k ls =>
      intro l hl
      obtain rfl : k = l := Option.some.inj hl
      cases ts with
      | nil => exact absurd rfl h.ne_nil
      | cons t ts =>
          rcases he t rfl with hf | hs
          · rw [(List.cons.inj h.lexemes).1] at hf
            exact absurd hf (h.ne_finish k List.mem_cons_self)
          · rwa [(List.cons.inj h.lexemes).1] at hs

/-- A value that is read, with its text. -/
theorem value_sound (h : Remain cs ts ls) (hv : value ts = .ok (taken, span, rest)) :
    ∃ ls', ls = taken.map Token.lexeme ++ ls' ∧ taken ≠ [] ∧ IsValue 0 (taken.map Token.lexeme) ∧
      Lexes (slice cs span) (taken.map Token.lexeme) ∧
      (∀ l ∈ ls'.head?, l = .mark .semicolon) ∧ Remain cs rest ls' := by
  obtain ⟨hvt, hs⟩ := value_eq_ok_iff.1 hv
  obtain ⟨rfl, hvalue, hend⟩ := valueTokens_eq_ok_iff.1 hvt
  obtain ⟨ls', rfl, hrest⟩ := h.of_append hvalue.ne_finish
  cases taken with
  | nil => cases hs
  | cons t mid =>
      rw [spanOf?_cons] at hs
      obtain rfl := Option.some.inj hs
      obtain ⟨pre, hpre⟩ := h.suffix
      rw [← List.append_assoc] at hpre
      exact ⟨ls', rfl, List.cons_ne_nil _ _, hvalue, lexes_slice hpre hrest.ne_nil,
        hrest.head?_eq_semicolon hend, hrest⟩

/-- A value is read wherever there is one. -/
theorem value_complete (h : Remain cs ts (vs ++ ls)) (hn : vs ≠ []) (hv : IsValue 0 vs)
    (he : ∀ l ∈ ls.head?, l = .mark .semicolon) :
    ∃ taken span rest, value ts = .ok (taken, span, rest) ∧ taken.map Token.lexeme = vs ∧
      Lexes (slice cs span) vs ∧ Remain cs rest ls := by
  obtain ⟨taken, rest, rfl, rfl, hrest⟩ := h.exists_append
  have hend : ∀ t ∈ rest.head?, t.lexeme.EndsValue := by
    intro t ht
    cases rest with
    | nil => cases ht
    | cons u rest =>
        obtain rfl : u = t := Option.some.inj ht
        cases ls with
        | nil => exact .inl (List.cons.inj hrest.lexemes).1
        | cons l ls => exact .inr ((List.cons.inj hrest.lexemes).1.trans (he l rfl))
  cases taken with
  | nil => exact absurd rfl hn
  | cons t mid =>
      have hread := value_eq_ok_iff.2 ⟨valueTokens_eq_ok_iff.2 ⟨rfl, hv, hend⟩, spanOf?_cons t mid⟩
      obtain ⟨ls', heq, -, -, htext, -, hrest'⟩ := h.value_sound hread
      exact ⟨_, _, _, hread, rfl, htext, hrest⟩

end Remain

/-! ### Brackets -/

/-- The lexemes in front of the bracket that closes one of kind `b`, `depth` of which were opened
before: each of them is closed, and none is closed that was not opened. -/
def Nested (b : Bracket) (depth : Nat) : List Lexeme → Prop
  | [] => depth = 0
  | l :: ls =>
    if l = .mark (.opening b) then Nested b (depth + 1) ls
    else if l = .mark (.closing b) then depth ≠ 0 ∧ Nested b (depth - 1) ls
    else Nested b depth ls

theorem closing?_eq_some_iff {b : Bracket} {depth : Nat} :
    closing? b depth ts = some (span, rest) ↔
      ∃ inner closed, ts = inner ++ closed :: rest ∧ closed.lexeme = .mark (.closing b) ∧
        closed.span = span ∧ Lexeme.finish ∉ inner.map Token.lexeme ∧
        Nested b depth (inner.map Token.lexeme) := by
  induction ts generalizing depth with
  | nil =>
      refine ⟨fun h => (by cases h), ?_⟩
      rintro ⟨inner, closed, h, -⟩
      exact absurd h.symm (List.append_ne_nil_of_right_ne_nil _ (List.cons_ne_nil _ _))
  | cons t ts ih =>
      -- The first token is one more of those inside, or the closing bracket itself.
      have hcons : (∃ inner closed, t :: ts = inner ++ closed :: rest ∧
            closed.lexeme = .mark (.closing b) ∧ closed.span = span ∧
            Lexeme.finish ∉ inner.map Token.lexeme ∧ Nested b depth (inner.map Token.lexeme)) ↔
          (ts = rest ∧ t.lexeme = .mark (.closing b) ∧ t.span = span ∧ depth = 0) ∨
          ∃ inner closed, ts = inner ++ closed :: rest ∧ closed.lexeme = .mark (.closing b) ∧
            closed.span = span ∧ Lexeme.finish ∉ (t :: inner).map Token.lexeme ∧
            Nested b depth ((t :: inner).map Token.lexeme) := by
        constructor
        · rintro ⟨inner, closed, hts, hl, hs, hf, hn⟩
          cases inner with
          | nil =>
              obtain ⟨rfl, rfl⟩ := List.cons.inj hts
              exact .inl ⟨rfl, hl, hs, hn⟩
          | cons u inner =>
              obtain ⟨rfl, rfl⟩ := List.cons.inj hts
              exact .inr ⟨inner, closed, rfl, hl, hs, hf, hn⟩
        · rintro (⟨rfl, hl, hs, hd⟩ | ⟨inner, closed, rfl, hl, hs, hf, hn⟩)
          · exact ⟨[], t, rfl, hl, hs, List.not_mem_nil, hd⟩
          · exact ⟨t :: inner, closed, rfl, hl, hs, hf, hn⟩
      rw [hcons, closing?]
      simp only [List.map_cons, List.mem_cons, not_or, Nested]
      split
      · next hf => simp [hf]
      · next hf =>
          have hf' : ¬Lexeme.finish = t.lexeme := fun h => hf h.symm
          split
          · next ho => simp [ih, ho]
          · split
            · next hc =>
                split
                · next hd => simp [hd, hc, and_comm]
                · next hd => simp [ih, hc, hd]
            · next ho hc => simp [ih, hc, hf']

namespace Remain

variable {b : Bracket}

/-- A bracketed part that is read, with its text. -/
theorem bracketed_sound (h : Remain cs ts ls) (hb : bracketed b what ts = .ok (span, rest)) :
    ∃ inner ls', ls = .mark (.opening b) :: (inner ++ .mark (.closing b) :: ls') ∧
      Nested b 0 inner ∧ Lexes (slice cs span) inner ∧ Remain cs rest ls' := by
  unfold bracketed at hb
  obtain ⟨⟨opened, ts'⟩, hm, hb⟩ := bind_eq_ok.1 hb
  obtain ⟨⟨ls', rfl⟩, rfl, rfl⟩ := h.mark_eq_ok_iff.1 hm
  dsimp only at hb
  split at hb
  · next closed rest' hc =>
      cases hb
      obtain ⟨inner, closed, hts, hl, rfl, hf, hn⟩ := closing?_eq_some_iff.1 hc
      have htail := h.tail
      rw [hts] at htail
      obtain ⟨ls'', rfl, hclosed⟩ := htail.of_append hf
      cases ls'' with
      | nil =>
          rw [(List.cons.inj hclosed.lexemes).1] at hl
          cases hl
      | cons l ls'' =>
          rw [(List.cons.inj hclosed.lexemes).1] at hl
          rw [hl] at hclosed ⊢
          obtain ⟨pre, hpre⟩ := h.suffix
          cases ts with
          | nil => exact absurd rfl h.ne_nil
          | cons opened ts =>
              rw [show ts = inner ++ closed :: rest from hts,
                show pre ++ opened :: (inner ++ closed :: rest) =
                  pre ++ opened :: inner ++ closed :: rest by simp] at hpre
              exact ⟨_, ls'', rfl, hn, lexes_between hpre hclosed.tail.ne_nil, hclosed.tail⟩
  · cases hb

/-- A bracketed part is read wherever there is one. -/
theorem bracketed_complete {inner : List Lexeme}
    (h : Remain cs ts (.mark (.opening b) :: (inner ++ .mark (.closing b) :: ls)))
    (hn : Nested b 0 inner) :
    ∃ span rest, bracketed b what ts = .ok (span, rest) ∧ Lexes (slice cs span) inner ∧
      Remain cs rest ls := by
  obtain ⟨taken, rest, hts, rfl, hrest⟩ := h.tail.exists_append
  have hnf : Lexeme.finish ∉ taken.map Token.lexeme := fun hf =>
    h.tail.ne_finish _ (List.mem_append_left _ hf) rfl
  cases rest with
  | nil => exact absurd rfl hrest.ne_nil
  | cons closed rest =>
      have hc : closing? b 0 ts.tail = some (closed.span, rest) :=
        closing?_eq_some_iff.2 ⟨taken, closed, hts, (List.cons.inj hrest.lexemes).1, rfl, hnf, hn⟩
      have hread : bracketed b what ts =
          .ok (⟨(peek ts).span.stop, closed.span.start⟩, rest) := by
        unfold bracketed
        rw [h.mark_eq_ok_iff.2 ⟨⟨_, rfl⟩, rfl, rfl⟩]
        simp only [bind, Except.bind, hc]
      refine ⟨_, _, hread, ?_, hrest.tail⟩
      obtain ⟨pre, hpre⟩ := h.suffix
      cases ts with
      | nil => exact absurd rfl h.ne_nil
      | cons opened ts =>
          rw [show ts = taken ++ closed :: rest from hts,
            show pre ++ opened :: (taken ++ closed :: rest) =
              pre ++ opened :: taken ++ closed :: rest by simp] at hpre
          exact lexes_between hpre hrest.tail.ne_nil

end Remain

/-! ### Attributes -/

/-- The lexemes of an attribute. -/
def attributeLexemes (typeName : Option String) (name : String) (value : List Lexeme) :
    List Lexeme :=
  typeName.toList.map .ident ++ .ident name :: .mark .equals :: value

/-- Lexemes of some attribute. -/
def IsAttribute (ls : List Lexeme) : Prop :=
  ∃ typeName name value, ls = attributeLexemes typeName name value ∧ value ≠ [] ∧ IsValue 0 value

/-- The type, if there is one, and the name of an attribute. -/
def attributeHead (ts : List Token) : Except SyntaxError (Option String × String × List Token) := do
  let (first, ts) ← identifier "an attribute name" ts
  match identifier "an attribute name" ts with
  | .ok (name, ts) => .ok (some first, name, ts)
  | .error _ => .ok (none, first, ts)

theorem readAttribute_eq (cs : List Char) : readAttribute cs = (do
    let ts ← readTokens cs
    let (typeName, name, ts) ← attributeHead ts
    let (_, ts) ← mark .equals "'=' after the attribute name" ts
    let (_, span, ts) ← value ts
    if (peek ts).lexeme = .finish then .ok ⟨typeName, name, slice cs span⟩
    else .error (.trailingTokens (peek ts))) := by
  unfold readAttribute attributeHead
  refine bind_congr fun ts => ?_
  rw [bind_assoc]
  refine bind_congr fun ⟨first, ts⟩ => ?_
  dsimp only
  cases identifier "an attribute name" ts <;> rfl

theorem Remain.attributeHead_sound (h : Remain cs ts ls) {typeName : Option String}
    (hh : attributeHead ts = .ok (typeName, name, rest)) :
    ∃ ls', ls = typeName.toList.map .ident ++ .ident name :: ls' ∧ Remain cs rest ls' := by
  unfold attributeHead at hh
  obtain ⟨⟨first, ts'⟩, hfirst, hh⟩ := bind_eq_ok.1 hh
  obtain ⟨⟨ls', rfl⟩, rfl⟩ := h.identifier_eq_ok_iff.1 hfirst
  dsimp only at hh
  split at hh
  · next hsecond =>
      cases hh
      obtain ⟨⟨ls'', rfl⟩, rfl⟩ := h.tail.identifier_eq_ok_iff.1 hsecond
      exact ⟨ls'', rfl, h.tail.tail⟩
  · cases hh
    exact ⟨ls', rfl, h.tail⟩

theorem Remain.attributeHead_complete {typeName : Option String}
    (h : Remain cs ts (attributeLexemes typeName name vs)) :
    ∃ rest, attributeHead ts = .ok (typeName, name, rest) ∧ Remain cs rest (.mark .equals :: vs) := by
  unfold attributeHead
  cases typeName with
  | some first =>
      have h' : Remain cs ts.tail (.ident name :: .mark .equals :: vs) := h.tail
      refine ⟨_, bind_eq_ok.2 ⟨_, h.identifier_eq_ok_iff.2 ⟨⟨_, rfl⟩, rfl⟩, ?_⟩, h'.tail⟩
      dsimp only
      rw [h'.identifier_eq_ok_iff.2 ⟨⟨_, rfl⟩, rfl⟩]
  | none =>
      have h' : Remain cs ts.tail (.mark .equals :: vs) := h.tail
      refine ⟨_, bind_eq_ok.2 ⟨_, h.identifier_eq_ok_iff.2 ⟨⟨_, rfl⟩, rfl⟩, ?_⟩, h'⟩
      dsimp only
      split
      · next hsecond =>
          -- An equals sign is no name.
          obtain ⟨⟨_, hbad⟩, -⟩ := h'.identifier_eq_ok_iff.1 hsecond
          cases hbad
      · rfl

theorem readAttribute_sound {a : Attribute} (h : Lexes cs ls) (ha : readAttribute cs = .ok a) :
    ∃ vs, ls = attributeLexemes a.typeName a.name vs ∧ vs ≠ [] ∧ IsValue 0 vs ∧ Lexes a.value vs := by
  obtain ⟨ts, hts, hr⟩ := h.exists_readTokens
  rw [readAttribute_eq, hts] at ha
  simp only [bind_eq_ok] at ha
  obtain ⟨_, hts', ⟨typeName, name, ts2⟩, hhead, ⟨_, ts3⟩, heq, ⟨taken, span, ts4⟩, hvalue, ha⟩ := ha
  obtain rfl := Except.ok.inj hts'
  dsimp only at heq hvalue ha
  obtain ⟨ls2, hls, hr2⟩ := hr.attributeHead_sound hhead
  obtain ⟨⟨ls3, rfl⟩, -, rfl⟩ := hr2.mark_eq_ok_iff.1 heq
  obtain ⟨ls4, rfl, hne, hv, htext, -, hr4⟩ := hr2.tail.value_sound hvalue
  split at ha
  · next hp =>
      cases ha
      rw [hr4.peek_eq_finish_iff.1 hp, List.append_nil] at hls
      exact ⟨_, hls, by simpa using hne, hv, htext⟩
  · cases ha

theorem readAttribute_complete (typeName : Option String)
    (h : Lexes cs (attributeLexemes typeName name vs)) (hne : vs ≠ []) (hv : IsValue 0 vs) :
    ∃ text, readAttribute cs = .ok ⟨typeName, name, text⟩ ∧ Lexes text vs := by
  obtain ⟨ts, hts, hr⟩ := h.exists_readTokens
  obtain ⟨ts2, hhead, hr2⟩ := hr.attributeHead_complete
  obtain ⟨taken, span, rest, hvalue, -, htext, hrest⟩ :=
    Remain.value_complete (by rw [List.append_nil]; exact hr2.tail) hne hv
      fun l (hl : l ∈ ([] : List Lexeme).head?) => by cases hl
  refine ⟨_, ?_, htext⟩
  rw [readAttribute_eq, hts]
  simp only [bind_eq_ok]
  refine ⟨_, rfl, _, hhead, _, hr2.mark_eq_ok_iff.2 ⟨⟨_, rfl⟩, rfl, rfl⟩, _, hvalue, ?_⟩
  exact if_pos hrest.peek_nil

/-- A text is an attribute if its lexemes are. -/
theorem exists_ofText_eq_ok_iff (h : Lexes cs ls) : (∃ a, Attribute.ofText cs = .ok a) ↔ IsAttribute ls := by
  simp only [Attribute.ofText, mapError_eq_ok]
  constructor
  · rintro ⟨a, ha⟩
    obtain ⟨vs, rfl, hne, hv, -⟩ := readAttribute_sound h ha
    exact ⟨_, _, vs, rfl, hne, hv⟩
  · rintro ⟨typeName, name, vs, rfl, hne, hv⟩
    obtain ⟨text, ha, -⟩ := readAttribute_complete _ h hne hv
    exact ⟨_, ha⟩

/-! ### Lists -/

variable {parts : List (List Char)} {lexed : List (List Lexeme)}

theorem checkAttributes_eq_ok_iff (h : List.Forall₂ Lexes parts lexed) (index : Nat) :
    checkAttributes index parts = .ok () ↔ ∀ part ∈ lexed, IsAttribute part := by
  induction h generalizing index with
  | nil => simp [checkAttributes]
  | @cons part ls parts lexed hpart _ ih =>
      rw [checkAttributes, List.forall_mem_cons, ← exists_ofText_eq_ok_iff hpart, ← ih (index + 1)]
      split
      · next ht =>
          -- A blank part is no attribute.
          refine ⟨fun h => (by cases h), fun ⟨ha, _⟩ => ?_⟩
          obtain ⟨_, _, _, rfl, -⟩ := (exists_ofText_eq_ok_iff hpart).1 ha
          exact absurd (hpart.trim_eq_nil_iff.1 ht) (by simp [attributeLexemes])
      · rw [bind_eq_ok]
        exact ⟨fun ⟨a, ha, hr⟩ => ⟨⟨a, ha⟩, hr⟩, fun ⟨⟨a, ha⟩, hr⟩ => ⟨a, ha, hr⟩⟩

theorem checkElements_eq_ok_iff (h : List.Forall₂ Lexes parts lexed) (index : Nat) :
    checkElements index parts = .ok () ↔ ∀ part ∈ lexed, part ≠ [] := by
  induction h generalizing index with
  | nil => simp [checkElements]
  | @cons part ls parts lexed hpart _ ih =>
      rw [checkElements, List.forall_mem_cons, ← ih (index + 1)]
      have hblank := hpart.trim_eq_nil_iff
      split
      · next hn => exact ⟨fun h => (by cases h), fun h => absurd (hblank.1 hn) h.1⟩
      · next hn => exact ⟨fun h => ⟨fun he => hn (hblank.2 he), h⟩, fun h => h.2⟩

/-- The lexemes of a list of attributes, between its brackets. -/
structure IsAttributeList (ls : List Lexeme) : Prop where
  nested : Nested .round 0 ls
  ne_nil : ls ≠ []
  attributes : ∀ part ∈ lexemeParts 0 ls, IsAttribute part

namespace Remain

variable {text : List Char}

/-- A list of attributes that is read, with its text. -/
theorem attributeList_sound (h : Remain cs ts ls) (ha : attributeList cs ts = .ok (text, rest)) :
    ∃ inner ls', ls = .mark (.opening .round) :: (inner ++ .mark (.closing .round) :: ls') ∧
      IsAttributeList inner ∧ Lexes text inner ∧ Remain cs rest ls' := by
  unfold attributeList at ha
  obtain ⟨⟨inside, ts'⟩, hb, ha⟩ := bind_eq_ok.1 ha
  obtain ⟨inner, ls', rfl, hn, htext, hrest⟩ := h.bracketed_sound hb
  dsimp only at ha
  split at ha
  · cases ha
  · next hne =>
      obtain ⟨u, hc, ha⟩ := bind_eq_ok.1 ha
      cases ha
      have htrim := htext.trim
      refine ⟨inner, ls', rfl, ⟨hn, ?_, ?_⟩, htrim, hrest⟩
      · exact fun he => hne (htext.trim_eq_nil_iff.2 he)
      · exact (checkAttributes_eq_ok_iff (lexes_splitTopLevel htrim) 1).1 hc

/-- A list of attributes is read wherever there is one. -/
theorem attributeList_complete {inner : List Lexeme}
    (h : Remain cs ts (.mark (.opening .round) :: (inner ++ .mark (.closing .round) :: ls)))
    (ha : IsAttributeList inner) :
    ∃ text rest, attributeList cs ts = .ok (text, rest) ∧ Lexes text inner ∧ Remain cs rest ls := by
  obtain ⟨span, rest, hb, htext, hrest⟩ := h.bracketed_complete ha.nested
  refine ⟨_, rest, ?_, htext.trim, hrest⟩
  unfold attributeList
  refine bind_eq_ok.2 ⟨_, hb, ?_⟩
  dsimp only
  rw [if_neg fun he => ha.ne_nil (htext.trim_eq_nil_iff.1 he)]
  refine bind_eq_ok.2 ⟨(), ?_, rfl⟩
  exact (checkAttributes_eq_ok_iff (lexes_splitTopLevel htext.trim) 1).2 ha.attributes

end Remain

end StackHeap.Command
