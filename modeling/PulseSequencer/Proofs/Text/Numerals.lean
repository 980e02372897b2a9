import PulseSequencer.Grammar.Token

/-!
# Numerals read back

The hexadecimal numeral of a number is a run of digits whose value is the number, whatever zeros stand in
front of it.
-/

namespace PulseSequencer

open Grammar

theorem digitValue?_digitChar {n : Nat} (h : n < 16) : digitValue? n.digitChar = some n := by
  have hall : ∀ n : Fin 16, digitValue? (Nat.digitChar n) = some n.val := by decide
  exact hall ⟨n, h⟩

theorem numeralValue_append (base : Nat) (cs ds : List Char) :
    numeralValue base (cs ++ ds) =
      ds.foldl (fun n c => base * n + (digitValue? c).getD 0) (numeralValue base cs) := by
  unfold numeralValue
  rw [List.foldl_append]

theorem numeralValue_toDigits (n : Nat) : numeralValue 16 (Nat.toDigits 16 n) = n := by
  induction n using Nat.strongRecOn with
  | ind n ih =>
    by_cases h : n < 16
    · rw [Nat.toDigits_of_lt_base h]
      simp [numeralValue, digitValue?_digitChar h]
    · rw [Nat.toDigits_of_base_le (by decide) (Nat.le_of_not_lt h), numeralValue_append,
        ih (n / 16) (by omega)]
      simp only [List.foldl_cons, List.foldl_nil, digitValue?_digitChar (Nat.mod_lt n (by decide)),
        Option.getD_some]
      omega

theorem numeralValue_replicate (base k : Nat) (cs : List Char) :
    numeralValue base (List.replicate k '0' ++ cs) = numeralValue base cs := by
  induction k with
  | zero => rfl
  | succ k ih =>
    rw [← ih]
    simp [numeralValue, List.replicate_succ, digitValue?]

theorem isHexDigit_of_mem_toDigits {n : Nat} {c : Char} (h : c ∈ Nat.toDigits 16 n) : isHexDigit c := by
  induction n using Nat.strongRecOn with
  | ind n ih =>
    by_cases hn : n < 16
    · rw [Nat.toDigits_of_lt_base hn, List.mem_singleton] at h
      rw [h, isHexDigit, digitValue?_digitChar hn]
      rfl
    · rw [Nat.toDigits_of_base_le (by decide) (Nat.le_of_not_lt hn), List.mem_append, List.mem_singleton] at h
      rcases h with h | h
      · exact ih (n / 16) (by omega) h
      · rw [h, isHexDigit, digitValue?_digitChar (Nat.mod_lt n (by decide))]
        rfl

def hexadecimalDigits (width n : Nat) : List Char := padLeft width '0' (Nat.toDigits 16 n)

theorem toList_hexadecimal (width n : Nat) :
    (hexadecimal width n).toList = '0' :: 'x' :: hexadecimalDigits width n := by
  simp [hexadecimal, zeroPadded, hexadecimalDigits]

theorem numeralValue_hexadecimalDigits (width n : Nat) : numeralValue 16 (hexadecimalDigits width n) = n := by
  rw [hexadecimalDigits, padLeft, numeralValue_replicate, numeralValue_toDigits]

theorem isHexDigit_of_mem_hexadecimalDigits {width n : Nat} {c : Char} (h : c ∈ hexadecimalDigits width n) :
    isHexDigit c := by
  rw [hexadecimalDigits, padLeft, List.mem_append] at h
  rcases h with h | h
  · rw [List.eq_of_mem_replicate h]
    rfl
  · exact isHexDigit_of_mem_toDigits h

theorem hexadecimalDigits_ne_nil (width n : Nat) : hexadecimalDigits width n ≠ [] := by
  rw [hexadecimalDigits, padLeft]
  exact List.append_ne_nil_of_right_ne_nil _ Nat.toDigits_ne_nil

end PulseSequencer
