import StackHeap.Proofs.Text.Unambiguous
import StackHeap.Text.Escape

/-! # Escaped texts

An escaped character can be read back, whatever comes behind it (`readEscaped_escapeChar`): only an
escape starts with a backslash, the character behind the backslash tells which escape it is, and a
code ends at its brace.  So an escaped text between quotes is unambiguous (`unambiguous_escape`): no
quote stands in it bare. -/

namespace StackHeap.Text

/-! ### Hexadecimal digits -/

/-- What a lower-case hexadecimal digit counts by itself. -/
def hexValue (c : Char) : Nat := if c.isDigit then c.toNat - '0'.toNat else c.toNat - 'a'.toNat + 10

/-- The number that lower-case hexadecimal digits denote. -/
def ofHexDigits (digits : List Char) : Nat := digits.foldl (fun n c => 16 * n + hexValue c) 0

theorem hexDigits_of_lt {n : Nat} (h : n < 16) : hexDigits n = [n.digitChar] :=
  Nat.toDigits_of_lt_base h

theorem hexDigits_of_le {n : Nat} (h : 16 ≤ n) :
    hexDigits n = hexDigits (n / 16) ++ [(n % 16).digitChar] := by
  unfold hexDigits
  rw [Nat.toDigits_eq_if (by decide), if_neg (Nat.not_lt.2 h)]

theorem hexValue_digitChar {d : Nat} (h : d < 16) : hexValue d.digitChar = d := by
  have key : ∀ d : Fin 16, hexValue (Nat.digitChar d) = d := by decide
  exact key ⟨d, h⟩

theorem exists_digitChar_of_mem {c : Char} {n : Nat} (h : c ∈ hexDigits n) :
    ∃ d < 16, c = d.digitChar := by
  induction n using Nat.strongRecOn with
  | ind n ih =>
      rcases Nat.lt_or_ge n 16 with hn | hn
      · rw [hexDigits_of_lt hn] at h
        exact ⟨n, hn, List.mem_singleton.1 h⟩
      · rw [hexDigits_of_le hn] at h
        rcases List.mem_append.1 h with hq | hr
        · exact ih _ (by omega) hq
        · exact ⟨n % 16, Nat.mod_lt _ (by decide), List.mem_singleton.1 hr⟩

/-- A brace is no digit. -/
theorem ne_of_mem_hexDigits {c : Char} {n : Nat} (h : c ∈ hexDigits n) : c ≠ '\x7d' := by
  obtain ⟨d, -, rfl⟩ := exists_digitChar_of_mem h
  exact Nat.digitChar_ne _ rfl

theorem ofHexDigits_hexDigits (n : Nat) : ofHexDigits (hexDigits n) = n := by
  induction n using Nat.strongRecOn with
  | ind n ih =>
      rcases Nat.lt_or_ge n 16 with hn | hn
      · rw [hexDigits_of_lt hn, ofHexDigits, List.foldl_cons, List.foldl_nil, hexValue_digitChar hn]
        omega
      · have hq := ih (n / 16) (by omega)
        unfold ofHexDigits at hq
        rw [hexDigits_of_le hn, ofHexDigits, List.foldl_append, hq, List.foldl_cons, List.foldl_nil,
          hexValue_digitChar (Nat.mod_lt _ (by decide))]
        omega

/-! ### Characters -/

/-- The escaped forms of characters. -/
inductive Escapes : Char → List Char → Prop where
  | tab : Escapes '\t' ['\\', 't']
  | carriageReturn : Escapes '\r' ['\\', 'r']
  | lineFeed : Escapes '\n' ['\\', 'n']
  | marked {c : Char} (h : c = '\'' ∨ c = '"' ∨ c = '\\') : Escapes c ['\\', c]
  | plain {c : Char} (h : ¬(c = '\'' ∨ c = '"' ∨ c = '\\')) (hp : 0x20 ≤ c.toNat ∧ c.toNat ≤ 0x7E) :
      Escapes c [c]
  | code (c : Char) : Escapes c ('\\' :: 'u' :: '\x7b' :: (hexDigits c.toNat ++ ['\x7d']))

theorem escapes_escapeChar (c : Char) : Escapes c (escapeChar c) := by
  unfold escapeChar
  split
  · next h => exact h ▸ .tab
  · split
    · next h => exact h ▸ .carriageReturn
    · split
      · next h => exact h ▸ .lineFeed
      · split
        · next h => exact .marked h
        · next h =>
            split
            · next hp => exact .plain h hp
            · exact .code c

/-- The first character of an escaped text, and what follows. -/
def readEscaped : List Char → Option (Char × List Char)
  | '\\' :: 't' :: r => some ('\t', r)
  | '\\' :: 'r' :: r => some ('\r', r)
  | '\\' :: 'n' :: r => some ('\n', r)
  | '\\' :: 'u' :: '\x7b' :: r =>
    some (Char.ofNat (ofHexDigits (r.span (· != '\x7d')).1), (r.span (· != '\x7d')).2.tail)
  | '\\' :: c :: r => some (c, r)
  | c :: r => some (c, r)
  | [] => none

/-- **Reading undoes escaping.** -/
theorem readEscaped_escapeChar (c : Char) (r : List Char) :
    readEscaped (escapeChar c ++ r) = some (c, r) := by
  have he := escapes_escapeChar c
  generalize escapeChar c = cs at he
  cases he with
  | tab => rfl
  | carriageReturn => rfl
  | lineFeed => rfl
  | marked h => rcases h with rfl | rfl | rfl <;> rfl
  | plain h hp =>
      -- A character that stands for itself is no backslash.
      have hne : c ≠ '\\' := fun he => h (.inr (.inr he))
      rw [List.singleton_append, readEscaped.eq_def]
      split <;> simp_all
  | code =>
      have hspan : (hexDigits c.toNat ++ ('\x7d' :: r)).span (· != '\x7d') =
          (hexDigits c.toNat, '\x7d' :: r) :=
        span_append_of_stops (fun d hd => bne_iff_ne.2 (ne_of_mem_hexDigits hd)) (stops_cons rfl r)
      rw [List.cons_append, List.cons_append, List.cons_append, List.append_assoc,
        List.singleton_append, readEscaped, hspan, ofHexDigits_hexDigits, Char.ofNat_toNat,
        List.tail_cons]

theorem unambiguous_escapeChar :
    Unambiguous (fun _ => True) escapeChar fun _ => True :=
  .of_reader readEscaped fun c r _ _ => readEscaped_escapeChar c r

/-- An escaped character is not a bare quote. -/
theorem head?_escapeChar_ne {c q : Char} (hq : q = '\'' ∨ q = '"') (r : List Char) :
    (escapeChar c ++ r).head? ≠ some q := by
  have he := escapes_escapeChar c
  generalize escapeChar c = cs at he
  intro h
  cases he with
  | plain hc hp =>
      obtain rfl := Option.some.inj h
      exact hc (hq.elim .inl fun h => .inr (.inl h))
  | _ => rcases hq with rfl | rfl <;> cases h

/-! ### Texts -/

theorem toList_escape (s : String) : (escape s).toList = s.toList.flatMap escapeChar :=
  String.toList_ofList

/-- **Escaped texts between quotes are unambiguous.** -/
theorem unambiguous_escape {q : Char} (hq : q = '\'' ∨ q = '"') :
    Unambiguous (fun _ => True) (fun s => (escape s).toList) fun r => r.head? = some q := by
  have hchars := unambiguous_escapeChar.flatMap (fun r => r.head? = some q)
    (fun _ _ _ => trivial) (fun _ _ => trivial) fun c r _ => head?_escapeChar_ne hq r
  intro s t r u _ _ hr hu h
  dsimp only at h
  rw [toList_escape, toList_escape] at h
  obtain ⟨he, hrest⟩ := hchars (fun _ _ => trivial) (fun _ _ => trivial) hr hu h
  exact ⟨String.toList_inj.1 he, hrest⟩

theorem unambiguous_quoted {q : Char} (hq : q = '\'' ∨ q = '"') :
    Unambiguous (fun _ => True) (fun s => [q] ++ ((escape s).toList ++ [q])) fun _ => True :=
  ((unambiguous_escape hq).append [q] fun _ => rfl).prepend [q]

end StackHeap.Text
