import Libdap.Guarantees.VariableNames
import Libdap.Source.Escapes

/-!
# Identifiers escaped and decoded

An escape of `id2www` is three bytes long and the scan goes on behind it; `www2id` puts one byte
in its place and goes on behind that. At every time what lies in front of the index is done and
what lies behind is the rest of what it was.
-/
namespace Libdap.Guarantees.IdentifierEscapes
open Libdap.Source Libdap.Source.Escaping Libdap.Library.Rewriting
open Libdap.Guarantees.VariableNames

variable {garbage : UInt8} {allowable : UInt8 → Bool} {s : Text}

/-! ### Escaping -/

theorem id2wwwWith_flatMap (allowable : UInt8 → Bool) (s : Text) :
    id2wwwWith allowable s =
      s.flatMap fun c => if allowable c then [c] else percent :: hexstring c := by
  rw [id2wwwWith, Escape.scan_start]
  congr
  funext c
  cases fine : allowable c <;> simp [Escape.images, wwwEscape, fine]

/-- The function used for names is that with the default set. -/
theorem id2wwwWith_default (s : Text) : id2wwwWith Escaping.allowable s = id2www s :=
  id2wwwWith_flatMap _ s

/-- Neither default has a percent sign. -/
theorem defaults_lack_percent :
    Escaping.allowable percent = false ∧ allowableCe percent = false := by
  decide

theorem hexDigit_lower : ∀ d < 16, (48 ≤ hexDigit d ∧ hexDigit d ≤ 57) ∨
    (97 ≤ hexDigit d ∧ hexDigit d ≤ 102) := by
  decide

theorem hexstring_lower (c : UInt8) :
    ∀ d ∈ hexstring c, (48 ≤ d ∧ d ≤ 57) ∨ (97 ≤ d ∧ d ≤ 102) := by
  have small : c.toNat < 256 := c.toNat_lt
  intro d mem
  simp only [hexstring, List.mem_cons, List.not_mem_nil, or_false] at mem
  obtain rfl | rfl := mem
  · exact hexDigit_lower _ (by omega)
  · exact hexDigit_lower _ (by omega)

theorem mem_id2wwwWith {c : UInt8} (mem : c ∈ id2wwwWith allowable s) :
    allowable c = true ∨ c = percent ∨ (48 ≤ c ∧ c ≤ 57) ∨ (97 ≤ c ∧ c ≤ 102) := by
  rw [id2wwwWith_flatMap, List.mem_flatMap] at mem
  obtain ⟨d, -, mem⟩ := mem
  split at mem
  next fine =>
    rw [List.mem_singleton] at mem
    exact .inl (mem ▸ fine)
  · rw [List.mem_cons] at mem
    exact .inr (mem.imp_right (hexstring_lower d c))

/-! ### Decoding -/

theorem www2id_plain_append (garbage : UInt8) {a : Text} (plain : percent ∉ a) (rest : Text) :
    www2id garbage (a ++ rest) = a ++ www2id garbage rest := by
  induction a with
  | nil => rfl
  | cons c a ih =>
    rw [List.mem_cons, not_or] at plain
    rw [List.cons_append, www2id_cons (Ne.symm plain.1), ih plain.2, List.cons_append]

theorem www2id_short (garbage : UInt8) {few : Text} (short : few.length < 2) :
    www2id garbage (percent :: few) = unhexText garbage few := by
  match few with
  | [] => rfl
  | [a] => rfl

/-- One turn of the loop: three bytes are replaced and one is passed. -/
theorem www2id_percent (garbage : UInt8) (rest : Text) :
    www2id garbage (percent :: rest) =
      (unhexText garbage (rest.take 2) ++ rest.drop 2).take 1 ++
        www2id garbage ((unhexText garbage (rest.take 2) ++ rest.drop 2).drop 1) := by
  match rest with
  | [] =>
    rw [www2id_short garbage (by simp)]
    unfold unhexText
    split <;> simp_all [www2id]
  | [a] =>
    rw [www2id_short garbage (by simp)]
    unfold unhexText
    split <;> simp_all [www2id]
  | a :: b :: rest =>
    rw [www2id_escape]
    simp only [List.take_succ_cons, List.take_zero, List.drop_succ_cons, List.drop_zero]
    unfold unhexText
    split
    · cases rest <;> simp [www2id]
    · simp

theorem www2idLoop_eq (garbage : UInt8) (s : Text) (i : Nat) :
    www2idLoop garbage [percent] [] s i = s.take i ++ www2id garbage (s.drop i) := by
  fun_induction www2idLoop garbage [percent] [] s i with
  | case1 s i nothing =>
    have plain : percent ∉ s.drop i := by
      intro mem
      obtain ⟨x, y, split⟩ := List.append_of_mem mem
      have missed := searchFrom_none nothing split (by simp)
      simp [firstOf] at missed
    rw [www2id_plain garbage plain, List.take_append_drop]
  | case2 s i j place excepted ih =>
    obtain ⟨a, b, rfl, rfl, -, visible, -, -⟩ := searchFrom_some place
    have empty := List.infix_nil.mp excepted
    rw [List.drop_left, List.take_eq_nil_iff] at empty
    exact absurd (empty.resolve_left (by omega)) visible
  | case3 s i j place _ ih =>
    obtain ⟨a, b, rfl, rfl, later, visible, found, before⟩ := searchFrom_some place
    obtain ⟨c, rest, rfl⟩ := List.exists_cons_of_ne_nil visible
    obtain rfl : c = percent := by simpa [firstOf] using found
    have plain : percent ∉ a.drop i := by
      intro mem
      obtain ⟨x, y, split⟩ := List.append_of_mem mem
      have missed := before x (percent :: y) split (by simp)
      simp [firstOf] at missed
    have digits : (a ++ percent :: rest).drop (a.length + 1) = rest := by
      rw [← List.drop_drop, List.drop_left]
      rfl
    have new : replace (a ++ percent :: rest) a.length 3 (unhexText garbage (rest.take 2)) =
        a ++ (unhexText garbage (rest.take 2) ++ rest.drop 2) := by
      simp [replace, ← List.drop_drop]
    rw [ih, digits, new, ← List.drop_drop, List.drop_left, List.take_length_add_append,
      List.append_assoc, ← www2id_percent, List.take_append_of_le_length later,
      List.drop_append_of_le_length later, www2id_plain_append garbage plain,
      ← List.append_assoc, List.take_append_drop]

/-- The function used for names is that with the default parameters. -/
theorem www2idWith_default (garbage : UInt8) (s : Text) :
    www2idWith garbage s [percent] [] = www2id garbage s :=
  www2idLoop_eq garbage s 0

theorem www2id_id2wwwWith (noNul : 0 ∉ s) (noPercent : allowable percent = false) :
    www2id garbage (id2wwwWith allowable s) = s := by
  rw [id2wwwWith_flatMap]
  induction s with
  | nil => rfl
  | cons c s ih =>
    rw [List.mem_cons, not_or] at noNul
    rw [List.flatMap_cons]
    split
    next fine =>
      have other : c ≠ percent := by
        intro same
        simp [same, noPercent] at fine
      rw [List.singleton_append, www2id_cons other, ih noNul.2]
    · rw [www2id_escaped (Ne.symm noNul.1), ih noNul.2]

/-- An identifier without a null character comes back if the percent sign is escaped, and only
allowed characters, percent signs and hexadecimal digits stand in the escaped one. -/
theorem identifiers_come_back (garbage : UInt8) (allowable : UInt8 → Bool) (s : Text)
    (noNul : 0 ∉ s) (noPercent : allowable percent = false) :
    www2idWith garbage (id2wwwWith allowable s) [percent] [] = s ∧
      ∀ c ∈ id2wwwWith allowable s,
        allowable c = true ∨ c = percent ∨ (48 ≤ c ∧ c ≤ 57) ∨ (97 ≤ c ∧ c ≤ 102) := by
  rw [www2idWith_default]
  exact ⟨www2id_id2wwwWith noNul noPercent, fun _ => mem_id2wwwWith⟩

theorem asterisk_comes_back :
    (0 ∉ [percent, 42, 200] ∧ allowableCe percent = false) ∧
      (www2idWith 7 (id2wwwWith allowableCe [percent, 42, 200]) [percent] [] =
          [percent, 42, 200] ∧
        ∀ c ∈ id2wwwWith allowableCe [percent, 42, 200],
          allowableCe c = true ∨ c = percent ∨ (48 ≤ c ∧ c ≤ 57) ∨ (97 ≤ c ∧ c ≤ 102)) :=
  ⟨⟨by decide, defaults_lack_percent.2⟩,
    identifiers_come_back 7 allowableCe [percent, 42, 200] (by decide) defaults_lack_percent.2⟩

end Libdap.Guarantees.IdentifierEscapes
