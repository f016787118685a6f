import StackHeap.Proofs.Command.Commas
import StackHeap.Proofs.Command.Lines
import StackHeap.Proofs.Snapshot.Places

/-! # What the readers tell

The names in a token are words and numbers, and texts in quotes are described escaped, so no
description of a token has a control character (`Described`).  A message quotes the line itself in
three places only: a character that is none of the language, a value that should be a character, and
an attribute that cannot be read.

`tells_tokenize` says this of the tokens and every other `tells_…` of the reader it is named after.
Of what a reader takes they say that names are clear, and that texts are pieces of what was read
(`Declaration.ReadFrom`, `LineKind.ReadFrom`, `RightSide.ReadFrom`). -/

namespace StackHeap.Command

open Number Text Typing

variable {source cs : List Char} {t : Token} {ts : List Token} {what name typeName : String}

/-! ### Tokens -/

theorem clear_describe_of_spells {piece rest : List Char} {l : Lexeme} (h : Spells piece l rest) :
    Clear [] l.describe := by
  cases h with
  | stringLiteral _ =>
      exact clear_between (by decide) (clear_escape _) (by decide)
  | charLiteral _ =>
      exact clear_between (by decide) (clear_escape _) (by decide)
  | number hc h =>
      refine clear_append.2 ⟨by decide, clear_of_forall (p := isNumberChar) ?_ (by decide)⟩
      rw [String.toList_ofList]
      exact isNumberChar_of_spells hc h
  | @word c taken _ hc hw _ =>
      unfold wordLexeme
      cases Keyword.ofName? (String.ofList (c :: taken)) with
      | some k =>
          show Clear [] (Lexeme.keyword k).describe
          cases k <;> decide
      | none =>
          refine clear_between (by decide) ?_ (by decide)
          refine clear_of_forall (p := isWordChar) ?_ (by decide)
          rw [String.toList_ofList]
          exact isWordChar_of_spells hc hw
  | mark m => rcases m with _ | _ | _ | _ | _ | b | b <;> first | decide | (cases b <;> decide)

/-- No description of a token has a control character. -/
def Described (ts : List Token) : Prop := ∀ t ∈ ts, Clear [] t.lexeme.describe

namespace Described

theorem tail (h : Described ts) : Described ts.tail := fun t ht => h t (List.mem_of_mem_tail ht)

theorem peek (h : Described ts) : Clear [] (peek ts).lexeme.describe := by
  cases ts with
  | nil => decide
  | cons t ts => exact h t List.mem_cons_self

/-- The name of an identifier stands in its description. -/
theorem ident (h : Described ts) (hp : (Command.peek ts).lexeme = .ident name) : Clear [] name := by
  have hd := h.peek
  rw [hp] at hd
  exact (clear_append.1 (clear_append.1 hd).1).2

end Described

/-- The texts of lexical errors: a place, and at most one character of the line. -/
theorem clear_lexError {fault : LexFault} {offset : Nat} (h : Clear source fault.message) :
    Clear source (LexError.message ⟨fault, offset⟩) :=
  clear_append.2 ⟨clear_append.2 ⟨h, Clear.lift (by decide)⟩, clear_naturalText _⟩

theorem tells_readQuoted {quote : Char} {unclosed : LexError} (hu : Clear source unclosed.message)
    (offset : Nat) (hcs : cs ⊆ source) :
    Tells source LexError.message (fun _ => True) (readQuoted quote unclosed offset cs) := by
  induction offset, cs using readQuoted.induct quote with
  | case1 => exact hu
  | case2 offset => exact clear_lexError (Clear.lift (by decide))
  | case3 offset c cs hn =>
      rw [readQuoted, hn]
      have hc : c ∈ source := hcs (by simp)
      exact clear_lexError (clear_append.2 ⟨Clear.lift (by decide), clear_toString hc⟩)
  | case4 offset c cs d hd ih =>
      rw [readQuoted, hd]
      exact (ih fun e he => hcs (by simp [he])).map fun _ _ => trivial
  | case5 offset cs h1 h2 =>
      rw [readQuoted, if_pos rfl]
      · trivial
      · exact h1
      · exact h2
  | case6 offset c cs h1 h2 hc ih =>
      rw [readQuoted, if_neg hc]
      · exact (ih fun e he => hcs (by simp [he])).map fun _ _ => trivial
      · exact h1
      · exact h2

theorem tells_readLexeme (start : Nat) {c : Char} (hcs : c :: cs ⊆ source) :
    Tells source LexError.message (fun r => Clear [] r.value.describe) (readLexeme start c cs) := by
  have htail : cs ⊆ source := fun d hd => hcs (List.mem_cons_of_mem c hd)
  -- What is read is spelled, so only the errors are left.
  suffices h : Tells source LexError.message (fun _ => True) (readLexeme start c cs) by
    cases hr : readLexeme start c cs with
    | ok r => exact clear_describe_of_spells (spells_of_readLexeme hr)
    | error e => rwa [hr] at h
  unfold readLexeme
  split
  · refine (tells_readQuoted ?_ _ htail).map fun _ _ => trivial
    exact clear_lexError (Clear.lift (by decide))
  · split
    · refine (tells_readQuoted ?_ _ htail).map fun _ _ => trivial
      exact clear_lexError (Clear.lift (by decide))
    · split
      · trivial
      · split
        · trivial
        · split
          · trivial
          · have hc := clear_toString (hcs List.mem_cons_self)
            exact clear_lexError (clear_append.2
              ⟨clear_append.2 ⟨Clear.lift (by decide), hc⟩, Clear.lift (by decide)⟩)

theorem tells_tokensFrom (offset : Nat) (hcs : cs ⊆ source) :
    Tells source LexError.message Described (tokensFrom offset cs) := by
  induction offset, cs using tokensFrom.induct with
  | case1 offset =>
      rw [tokensFrom_nil]
      have hfinish : Clear [] Lexeme.finish.describe := by decide
      exact List.forall_mem_singleton.2 hfinish
  | case2 offset c cs hb ih =>
      rw [tokensFrom_blank hb]
      exact ih fun d hd => hcs (List.mem_cons_of_mem c hd)
  | case3 offset c cs hb e he =>
      have hread := tells_readLexeme offset hcs
      rw [he] at hread
      rw [tokensFrom.eq_def]
      simp only [he, if_neg hb]
      exact hread
  | case4 offset c cs hb r hr stop ih =>
      have hread := tells_readLexeme offset hcs
      rw [hr] at hread
      rw [tokensFrom.eq_def]
      simp only [hr, if_neg hb]
      have hrest : r.rest ⊆ source := fun d hd =>
        hcs (List.mem_cons_of_mem c (r.joined ▸ List.mem_append_right _ hd))
      exact (ih hrest).map fun ts hts => List.forall_mem_cons.2 ⟨hread, hts⟩

theorem tells_readTokens (hcs : cs ⊆ source) :
    Tells source SyntaxError.message Described (readTokens cs) :=
  (tells_tokensFrom 0 hcs).mapError fun _ he => he

/-! ### Single tokens -/

@[simp] theorem clear_atPosition (span : Span) : Clear source (SyntaxError.atPosition span) :=
  clear_append.2 ⟨Clear.lift (by decide), clear_naturalText _⟩

theorem clear_expected (hw : Clear [] what) (ht : Clear [] t.lexeme.describe) :
    Clear source (SyntaxError.expected what t).message := by
  unfold SyntaxError.message
  simp (disch := first | decide | assumption) [Clear.lift]

theorem clear_notIdentifier (hw : Clear [] what) (ht : Clear [] t.lexeme.describe) :
    Clear source (notIdentifier what t).message := by
  have hinvalid : Clear source (SyntaxError.invalidIdentifier what t).message := by
    unfold SyntaxError.message
    simp (disch := first | decide | assumption) [Clear.lift]
  unfold notIdentifier
  split
  · exact hinvalid
  · exact hinvalid
  · exact clear_expected hw ht

theorem clear_trailingTokens (ht : Clear [] t.lexeme.describe) :
    Clear source (SyntaxError.trailingTokens t).message := by
  unfold SyntaxError.message
  simp (disch := first | decide | assumption) [Clear.lift]

theorem tells_identifier (hw : Clear [] what) (hts : Described ts) :
    Tells source SyntaxError.message (fun r => Clear [] r.1 ∧ Described r.2) (identifier what ts) := by
  unfold identifier
  split
  · next hp => exact ⟨hts.ident hp, hts.tail⟩
  · exact clear_notIdentifier hw hts.peek

theorem tells_mark {m : Mark} (hw : Clear [] what) (hts : Described ts) :
    Tells source SyntaxError.message (fun r => Described r.2) (mark m what ts) := by
  unfold mark
  split
  · exact hts.tail
  · exact clear_expected hw hts.peek

theorem tells_lineEnd (hts : Described ts) :
    Tells source SyntaxError.message (fun _ => True) (lineEnd ts) := by
  refine (tells_mark (by decide) hts).bind fun r hr => ?_
  dsimp only
  split
  · trivial
  · exact clear_trailingTokens hr.peek

/-! ### Values and bracketed parts -/

theorem clear_chainedAssignment (span : Span) :
    Clear source (SyntaxError.chainedAssignment span).message := by
  unfold SyntaxError.message
  simp (disch := decide) [Clear.lift]

theorem clear_unclosed (b : Bracket) (span : Span) :
    Clear source (SyntaxError.unclosed b span).message := by
  have hb : Clear [] b.opener.toString := by cases b <;> decide
  unfold SyntaxError.message
  simp (disch := first | decide | assumption) only [clear_append, Clear.lift, clear_atPosition, and_self]

theorem tells_valueTokens (depth : Nat) (hts : Described ts) :
    Tells source SyntaxError.message (fun r => Described r.2) (valueTokens depth ts) := by
  induction ts generalizing depth with
  | nil => exact hts
  | cons t ts ih =>
      rw [valueTokens_cons]
      split
      · exact hts
      · split
        · exact clear_chainedAssignment _
        · exact (ih _ (List.forall_mem_cons.1 hts).2).map fun _ hr => hr

theorem tells_value (hts : Described ts) :
    Tells source SyntaxError.message (fun r => Described r.2.2) (value ts) := by
  refine (tells_valueTokens 0 hts).bind fun r hr => ?_
  dsimp only
  split
  · exact hr
  · exact Clear.lift (by decide)

theorem described_of_closing? {b : Bracket} {depth : Nat} {span : Span} {rest : List Token}
    (hts : Described ts) (h : closing? b depth ts = some (span, rest)) : Described rest := by
  induction ts generalizing depth with
  | nil => cases h
  | cons t ts ih =>
      have htail := (List.forall_mem_cons.1 hts).2
      rw [closing?] at h
      split at h
      · cases h
      · split at h
        · exact ih htail h
        · split at h
          · split at h
            · obtain ⟨-, rfl⟩ := Prod.mk.inj (Option.some.inj h)
              exact htail
            · exact ih htail h
          · exact ih htail h

theorem tells_bracketed {b : Bracket} (hw : Clear [] what) (hts : Described ts) :
    Tells source SyntaxError.message (fun r => Described r.2) (bracketed b what ts) := by
  refine (tells_mark hw hts).bind fun r hr => ?_
  dsimp only
  split
  · next hc => exact described_of_closing? hr hc
  · exact clear_unclosed b r.1

/-! ### Attributes and elements -/

/-- The names of an attribute are clear, and its value is a piece of what was read. -/
structure Attribute.ReadFrom (source : List Char) (a : Attribute) : Prop where
  typeName : ∀ s ∈ a.typeName, Clear [] s
  name : Clear [] a.name
  value : a.value ⊆ source

theorem tells_attributeHead (hts : Described ts) :
    Tells source SyntaxError.message
      (fun r => (∀ s ∈ r.1, Clear [] s) ∧ Clear [] r.2.1 ∧ Described r.2.2) (attributeHead ts) := by
  have hwhat : Clear [] "an attribute name" := by decide
  refine (tells_identifier hwhat hts).bind fun ⟨first, ts⟩ ⟨hfirst, hts⟩ => ?_
  dsimp only
  split
  · next name rest hok =>
      -- A second name makes the first one a type.
      have hsecond : Tells [] _ _ _ := tells_identifier hwhat hts
      rw [hok] at hsecond
      exact ⟨fun s hs => Option.mem_some.1 hs ▸ hfirst, hsecond⟩
  · exact ⟨fun s hs => (by cases hs), hfirst, hts⟩

theorem tells_readAttribute (hcs : cs ⊆ source) :
    Tells source SyntaxError.message (Attribute.ReadFrom source) (readAttribute cs) := by
  rw [readAttribute_eq]
  refine (tells_readTokens hcs).bind fun ts hts => ?_
  refine (tells_attributeHead hts).bind fun ⟨typeName, name, ts⟩ ⟨htype, hname, hts⟩ => ?_
  refine (tells_mark (by decide) hts).bind fun ⟨_, ts⟩ hts => ?_
  refine (tells_value hts).bind fun ⟨_, span, ts⟩ hts => ?_
  dsimp only
  split
  · exact ⟨htype, hname, List.Subset.trans (slice_subset cs span) hcs⟩
  · exact clear_trailingTokens hts.peek

theorem clear_malformedAttribute (hcs : cs ⊆ source) :
    Clear source (SyntaxError.malformedAttribute (String.ofList (trim cs))).message := by
  have htext := clear_ofList (List.Subset.trans (trim_subset cs) hcs)
  unfold SyntaxError.message
  simp (disch := decide) only [clear_append, Clear.lift, htext, and_self]

theorem tells_ofText (hcs : cs ⊆ source) :
    Tells source SyntaxError.message (Attribute.ReadFrom source) (Attribute.ofText cs) :=
  (tells_readAttribute hcs).mapError fun _ _ => clear_malformedAttribute hcs

theorem clear_emptyAttribute (index : Nat) :
    Clear source (SyntaxError.emptyAttribute index).message := by
  unfold SyntaxError.message
  simp (disch := decide) [Clear.lift]

theorem tells_checkAttributes {index : Nat} {parts : List (List Char)}
    (hparts : ∀ part ∈ parts, part ⊆ source) :
    Tells source SyntaxError.message (fun _ => True) (checkAttributes index parts) := by
  induction parts generalizing index with
  | nil => trivial
  | cons part parts ih =>
      rw [List.forall_mem_cons] at hparts
      rw [checkAttributes]
      split
      · exact clear_emptyAttribute index
      · exact (tells_ofText hparts.1).bind fun _ _ => ih hparts.2

theorem clear_emptyElement (index : Nat) :
    Clear source (SyntaxError.emptyElement index).message := by
  unfold SyntaxError.message
  simp (disch := decide) [Clear.lift]

theorem tells_checkElements (index : Nat) (parts : List (List Char)) :
    Tells source SyntaxError.message (fun _ => True) (checkElements index parts) := by
  induction parts generalizing index with
  | nil => trivial
  | cons part parts ih =>
      rw [checkElements]
      split
      · exact clear_emptyElement index
      · exact ih (index + 1)

/-- The parts of a list are pieces of it. -/
theorem subset_of_mem_splitTopLevel {part : List Char} (h : part ∈ splitTopLevel cs)
    (hcs : cs ⊆ source) : part ⊆ source := by
  have hpart := subset_intercalate [','] h
  rw [splitTopLevel, Scan.intercalate_parts] at hpart
  exact List.Subset.trans hpart hcs

/-- What stands between brackets is a piece of the text. -/
theorem trim_slice_subset (hcs : cs ⊆ source) (span : Span) : trim (slice cs span) ⊆ source :=
  List.Subset.trans (trim_subset _) (List.Subset.trans (slice_subset cs span) hcs)

theorem tells_attributeList (hcs : cs ⊆ source) (hts : Described ts) :
    Tells source SyntaxError.message (fun r => r.1 ⊆ source ∧ Described r.2)
      (attributeList cs ts) := by
  refine (tells_bracketed (by decide) hts).bind fun ⟨inner, ts⟩ hts => ?_
  have htext := trim_slice_subset hcs inner
  dsimp only
  split
  · exact Clear.lift (by decide)
  · refine (tells_checkAttributes fun part hp => subset_of_mem_splitTopLevel hp htext).bind ?_
    exact fun _ _ => ⟨htext, hts⟩

/-! ### Declarations -/

/-- The names in a declaration are clear, and its texts are pieces of what was read. -/
def Declaration.ReadFrom (source : List Char) : Declaration → Prop
  | .scalar typeName name value => Clear [] typeName ∧ Clear [] name ∧ value ⊆ source
  | .object typeName name constructor? attributes =>
    Clear [] typeName ∧ Clear [] name ∧ (∀ s ∈ constructor?, Clear [] s) ∧ attributes ⊆ source
  | .array elementType name elements => Clear [] elementType ∧ Clear [] name ∧ elements ⊆ source

theorem tells_constructorHead (hts : Described ts) :
    Tells source SyntaxError.message (fun r => (∀ s ∈ r.1, Clear [] s) ∧ Described r.2)
      (constructorHead ts) := by
  unfold constructorHead
  split
  · refine (tells_identifier (by decide) hts.tail).map fun r hr => ?_
    exact ⟨fun s hs => Option.mem_some.1 hs ▸ hr.1, hr.2⟩
  · exact ⟨fun s hs => (by cases hs), hts⟩

theorem tells_arrayHead (hts : Described ts) :
    Tells source SyntaxError.message (fun r => Described r.2) (arrayHead ts) := by
  unfold arrayHead
  split
  · exact (tells_mark (by decide) hts.tail).map fun _ hr => hr
  · exact hts

section Declarations

variable (hcs : cs ⊆ source) (htype : Clear [] typeName) (hname : Clear [] name)
  (hts : Described ts)

include hcs htype hname hts

theorem tells_objectBody :
    Tells source SyntaxError.message (Declaration.ReadFrom source)
      (objectBody cs typeName name ts) := by
  rw [objectBody_eq]
  refine (tells_constructorHead hts).bind fun ⟨constructor?, ts⟩ ⟨hc, hts⟩ => ?_
  refine (tells_attributeList hcs hts).bind fun ⟨attributes, ts⟩ ⟨hattributes, hts⟩ => ?_
  exact (tells_lineEnd hts).bind fun _ _ => ⟨htype, hname, hc, hattributes⟩

theorem tells_arrayBody :
    Tells source SyntaxError.message (Declaration.ReadFrom source)
      (arrayBody cs typeName name ts) := by
  refine (tells_bracketed (by decide) hts).bind fun ⟨inner, ts⟩ hts => ?_
  refine (tells_lineEnd hts).bind fun _ _ => ?_
  dsimp only
  split
  · exact Clear.lift (by decide)
  · exact (tells_checkElements 1 _).bind fun _ _ => ⟨htype, hname, trim_slice_subset hcs inner⟩

theorem tells_scalarBody :
    Tells source SyntaxError.message (Declaration.ReadFrom source)
      (scalarBody cs typeName name ts) := by
  refine (tells_value hts).bind fun ⟨taken, span, ts⟩ hts => ?_
  refine (tells_lineEnd hts).bind fun _ _ => ?_
  have htext := List.Subset.trans (slice_subset cs span) hcs
  dsimp only
  split
  · exact clear_append.2 ⟨Clear.lift (by decide), clear_ofList htext⟩
  · exact ⟨htype, hname, htext⟩

end Declarations

theorem tells_declaration (hcs : cs ⊆ source) (hts : Described ts) :
    Tells source SyntaxError.message (Declaration.ReadFrom source) (declaration cs ts) := by
  rw [declaration_eq]
  refine (tells_identifier (by decide) hts).bind fun ⟨typeName, ts⟩ ⟨htype, hts⟩ => ?_
  refine (tells_arrayHead hts).bind fun ⟨isArray, ts⟩ hts => ?_
  refine (tells_identifier (by decide) hts).bind fun ⟨name, ts⟩ ⟨hname, hts⟩ => ?_
  refine (tells_mark (by decide) hts).bind fun ⟨_, ts⟩ hts => ?_
  dsimp only
  split
  · exact tells_arrayBody hcs htype hname hts
  · split
    · exact tells_objectBody hcs htype hname hts
    · exact tells_scalarBody hcs htype hname hts

/-! ### Lines -/

theorem tells_terminated (cs : List Char) :
    Tells source SyntaxError.message (fun _ => True) (terminated cs) := by
  unfold terminated
  dsimp only
  split
  · exact Clear.lift (by decide)
  · split
    · trivial
    · exact Clear.lift (by decide)

/-- **What keeps a line from being a declaration.** -/
theorem tells_checkDeclaration (hcs : cs ⊆ source) :
    Tells source SyntaxError.message (Declaration.ReadFrom source) (checkDeclaration cs) :=
  (tells_terminated cs).bind fun _ _ => (tells_readTokens hcs).bind fun _ hts =>
    tells_declaration hcs hts

/-- The names in a line are clear, and the value assigned is a piece of it. -/
def LineKind.ReadFrom (source : List Char) : LineKind → Prop
  | .enter name => Clear [] name
  | .assignment target value => Clear [] target ∧ value ⊆ source
  | _ => True

theorem tells_enterLine (hts : Described ts) :
    Tells source SyntaxError.message (LineKind.ReadFrom source) (enterLine ts) := by
  refine (tells_identifier (by decide) hts).bind fun ⟨name, ts⟩ ⟨hname, hts⟩ => ?_
  refine (tells_bracketed (by decide) hts).bind fun ⟨_, ts⟩ hts => ?_
  exact (tells_lineEnd hts).bind fun _ _ => hname

theorem tells_assignmentLine (hcs : cs ⊆ source) (hname : Clear [] name) (hts : Described ts) :
    Tells source SyntaxError.message (LineKind.ReadFrom source) (assignmentLine cs name ts) := by
  refine (tells_value hts).bind fun ⟨_, span, ts⟩ hts => ?_
  exact (tells_lineEnd hts).bind fun _ _ => ⟨hname, List.Subset.trans (slice_subset cs span) hcs⟩

theorem tells_classifyTokens (hcs : cs ⊆ source) (hts : Described ts) :
    Tells source SyntaxError.message (LineKind.ReadFrom source) (classifyTokens cs ts) := by
  unfold classifyTokens
  split
  · exact tells_enterLine hts.tail
  · exact (tells_lineEnd hts.tail).map fun _ _ => trivial
  · next hp =>
      split
      · exact tells_assignmentLine hcs (hts.ident hp) hts.tail.tail
      · trivial
  · trivial

/-- **What keeps a line from being told apart.** -/
theorem tells_classify (hcs : cs ⊆ source) :
    Tells source SyntaxError.message (LineKind.ReadFrom source) (classify cs) := by
  unfold classify
  have hread := tells_readTokens hcs
  split
  · next hok =>
      rw [hok] at hread
      exact tells_classifyTokens hcs hread
  · trivial

/-- The names in a right-hand side are clear, and its texts are pieces of what was read. -/
def RightSide.ReadFrom (source : List Char) : RightSide → Prop
  | .variable name => Clear [] name
  | .null => True
  | .construct typeName attributes => Clear [] typeName ∧ attributes ⊆ source
  | .literal text => text ⊆ source

/-- **What keeps a right-hand side from being read.** -/
theorem tells_rightSide (hcs : cs ⊆ source) :
    Tells source SyntaxError.message (RightSide.ReadFrom source) (rightSide cs) := by
  have htext := List.Subset.trans (trim_subset cs) hcs
  refine (tells_readTokens htext).bind fun ts hts => ?_
  split
  · next name hl =>
      cases ts with
      | nil => cases hl
      | cons t ts => exact hts.ident (List.cons.inj hl).1
  · trivial
  · refine (tells_identifier (by decide) hts.tail).bind fun ⟨typeName, ts⟩ ⟨htype, hts⟩ => ?_
    refine (tells_attributeList htext hts).bind fun ⟨attributes, ts⟩ ⟨hattributes, hts⟩ => ?_
    dsimp only
    split
    · exact ⟨htype, hattributes⟩
    · exact clear_expected (by decide) hts.peek
  · exact htext

end StackHeap.Command
