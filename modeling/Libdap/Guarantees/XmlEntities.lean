import Libdap.Source.Escapes

/-!
# Entities escaped and decoded

Decoding takes the five entities one after the other. The first two passes only find what
`id2xml` has put there, as every ampersand of the string itself is still escaped. From the third
pass on the ampersands of the string stand in it again, and what follows them may be read as an
entity.
-/
namespace Libdap.Guarantees.XmlEntities
open Libdap.Source Libdap.Source.Escaping Libdap.Library.Rewriting

variable {s t pattern tail rest chars : Text} {c d : UInt8} {long : 1 < pattern.length}

/-! ### Passes for one pattern -/

theorem onePattern_normal : (onePattern pattern c long).Normal s ↔ ¬ pattern <:+: s := by
  constructor
  · intro normal there
    obtain ⟨a, b, rfl⟩ := there
    have missed := normal a pattern b (List.append_assoc a pattern b) rfl
    simp [onePattern] at missed
  · intro absent a w b split _
    by_contra accepted
    obtain rfl : w = pattern := by simpa [onePattern] using accepted
    exact absent ⟨a, b, by rw [split, List.append_assoc]⟩

theorem onePattern_step (a b : Text) :
    (onePattern pattern c long).Step (a ++ (pattern ++ b)) (a ++ (c :: b)) :=
  ⟨a, pattern, b, rfl, by simp [onePattern], rfl, rfl⟩

theorem onePattern_apart {long : 1 < (d :: tail).length} (first : d ∉ tail) :
    (onePattern (d :: tail) c long).Apart :=
  Rules.apart_of_first d fun w accepted => ⟨tail, by simpa [onePattern] using accepted, first⟩

theorem onePattern_settles {long : 1 < (d :: tail).length} (first : d ∉ tail) (new : c ∉ tail) :
    (onePattern (d :: tail) c long).Settles id where
  apart := onePattern_apart first
  resumes := by
    refine Rules.resumes_here (fun _ _ => by simp [onePattern]) ?_
    intro w v _ accepted a mem
    obtain rfl : v = d :: tail := by simpa [onePattern] using accepted
    obtain rfl : a = c := by simpa [onePattern] using mem
    exact new

/-! ### Strings with some characters escaped -/

/-- Only the characters of the list are escaped. -/
def encode (chars s : Text) : Text :=
  s.flatMap fun c => if chars.contains c then (entity c).getD [] else [c]

theorem id2xml_encode (s : Text) : id2xml s = encode notAllowed s := by
  rw [id2xml, Escape.scan_start]
  rfl

theorem encode_nil (s : Text) : encode [] s = s := by
  simp [encode]

theorem encode_cons_mem (mem : d ∈ chars) (s : Text) :
    encode chars (d :: s) = (entity d).getD [] ++ encode chars s := by
  simp [encode, mem]

theorem encode_cons_other (other : d ∉ chars) (s : Text) :
    encode chars (d :: s) = d :: encode chars s := by
  simp [encode, other]

theorem encode_plain (plain : ∀ d ∈ t, d ∉ chars) (s : Text) :
    encode chars (t ++ s) = t ++ encode chars s := by
  induction t with
  | nil => rfl
  | cons d t ih =>
    rw [List.cons_append, encode_cons_other (plain d List.mem_cons_self),
      ih fun e mem => plain e (List.mem_cons_of_mem d mem), List.cons_append]

/-- The pass for a character undoes its escapes. -/
theorem encode_steps (known : entity c = some pattern) (fresh : c ∉ chars) (s : Text) :
    (onePattern pattern c long).Steps (encode (c :: chars) s) (encode chars s) := by
  induction s with
  | nil => exact .refl
  | cons d s ih =>
    by_cases same : d = c
    · subst same
      rw [encode_cons_mem List.mem_cons_self, encode_cons_other fresh, known, Option.getD_some]
      have first : (onePattern pattern d long).Step ([] ++ (pattern ++ encode (d :: chars) s))
          ([] ++ (d :: encode (d :: chars) s)) := onePattern_step [] _
      have later := ih.around [d] []
      simp only [List.append_nil, List.singleton_append, List.nil_append] at first later
      exact .head first later
    · by_cases mem : d ∈ chars
      · rw [encode_cons_mem (List.mem_cons_of_mem c mem), encode_cons_mem mem]
        simpa using ih.around ((entity d).getD []) []
      · rw [encode_cons_other (by simp [same, mem]), encode_cons_other mem]
        simpa using ih.around [d] []

/-- A pass on the string goes on unchanged among the escapes of other characters. -/
theorem encode_lift (plain : ∀ d ∈ pattern, d ∉ chars) (fresh : c ∉ chars)
    (steps : (onePattern pattern c long).Steps s t) :
    (onePattern pattern c long).Steps (encode chars s) (encode chars t) := by
  induction steps with
  | refl => exact .refl
  | tail _ step ih =>
    obtain ⟨a, w, b, _, accepted, rfl, rfl⟩ := step
    obtain rfl : w = pattern := by simpa [onePattern] using accepted
    apply ih.tail
    have images : ∀ x y, encode chars (x ++ y) = encode chars x ++ encode chars y :=
      fun x y => List.flatMap_append
    have before : encode chars (a ++ (w ++ b)) = encode chars a ++ (w ++ encode chars b) := by
      rw [← encode_plain plain]
      exact images a (w ++ b)
    have after : encode chars (a ++ (c :: b)) = encode chars a ++ (c :: encode chars b) := by
      rw [← encode_cons_other fresh]
      exact images a (c :: b)
    rw [before]
    exact after ▸ onePattern_step _ _

/-! ### Where an entity may begin -/

theorem entity_shape (known : entity c = some pattern) :
    c ∈ notAllowed ∧ ∃ tail, pattern = ampersand :: tail ∧ 1 ≤ tail.length ∧
      ∀ d ∈ tail, d ∉ notAllowed := by
  unfold entity at known
  split_ifs at known with gt lt amp apos quot <;> cases known
  · exact ⟨by simp [gt, notAllowed], _, rfl, by decide, List.forall_iff_forall_mem.mp (by decide)⟩
  · exact ⟨by simp [lt, notAllowed], _, rfl, by decide, List.forall_iff_forall_mem.mp (by decide)⟩
  · exact ⟨by simp [amp, notAllowed], _, rfl, by decide, List.forall_iff_forall_mem.mp (by decide)⟩
  · exact ⟨by simp [apos, notAllowed], _, rfl, by decide, List.forall_iff_forall_mem.mp (by decide)⟩
  · exact ⟨by simp [quot, notAllowed], _, rfl, by decide, List.forall_iff_forall_mem.mp (by decide)⟩

theorem entity_prefix_free :
    notAllowed.Forall fun c => notAllowed.Forall fun d =>
      c ≠ d → ¬ (entity c).getD [] <+: (entity d).getD [] := by
  decide

theorem entity_distinct {q : Text} (known : entity c = some pattern) (other : entity d = some q)
    (distinct : c ≠ d) (rest : Text) : ¬ pattern <+: q ++ rest := by
  have free := fun c d (memC : c ∈ notAllowed) (memD : d ∈ notAllowed) =>
    List.forall_iff_forall_mem.mp (List.forall_iff_forall_mem.mp entity_prefix_free c memC) d memD
  have memC := (entity_shape known).1
  have memD := (entity_shape other).1
  intro front
  cases Nat.le_total pattern.length q.length with
  | inl short =>
    have inside := List.prefix_of_prefix_length_le front (List.prefix_append q rest) short
    exact free c d memC memD distinct (by simpa [known, other] using inside)
  | inr short =>
    have inside := List.prefix_of_prefix_length_le (List.prefix_append q rest) front short
    exact free d c memD memC distinct.symm (by simpa [known, other] using inside)

/-- Behind an ampersand that is not escaped stands what stood there in the string. -/
theorem prefix_encode (known : ∀ d ∈ chars, d ∈ notAllowed) (plain : ampersand ∉ t)
    (front : t <+: encode chars s) : t <+: s := by
  induction t generalizing s with
  | nil => exact List.nil_prefix
  | cons e t ih =>
    rw [List.mem_cons, not_or] at plain
    cases s with
    | nil => simp [encode] at front
    | cons d s =>
      by_cases mem : d ∈ chars
      · obtain ⟨q, is, -, -⟩ := entity_recognized (known d mem)
        obtain ⟨-, tail, rfl, -, -⟩ := entity_shape is
        rw [encode_cons_mem mem, is, Option.getD_some, List.cons_append,
          List.cons_prefix_cons] at front
        exact absurd front.1.symm plain.1
      · rw [encode_cons_other mem, List.cons_prefix_cons] at front
        exact List.cons_prefix_cons.mpr ⟨front.1, ih plain.2 front.2⟩

/-- An entity among the escapes of other characters was in the string before, and if ampersands
are escaped there is none. -/
theorem infix_encode (known : ∀ d ∈ chars, d ∈ notAllowed) (is : entity c = some pattern)
    (fresh : c ∉ chars) (there : pattern <:+: encode chars s) :
    ampersand ∉ chars ∧ pattern <:+: s := by
  obtain ⟨-, tail, rfl, -, tail_plain⟩ := entity_shape is
  have plain : ampersand ∉ tail := fun mem => tail_plain _ mem (by decide)
  induction s with
  | nil => simp [encode] at there
  | cons d s ih =>
    by_cases mem : d ∈ chars
    · obtain ⟨q, other, -, -⟩ := entity_recognized (known d mem)
      have distinct := entity_distinct is other (by rintro rfl; exact fresh mem) (encode chars s)
      obtain ⟨-, tail', rfl, -, tail_plain'⟩ := entity_shape other
      rw [encode_cons_mem mem, other, Option.getD_some, List.cons_append,
        List.infix_cons_iff] at there
      have later := there.resolve_left distinct
      have rest := ih (infix_skip (fun mem => tail_plain' _ mem (by decide)) later)
      exact ⟨rest.1, List.infix_cons rest.2⟩
    · rw [encode_cons_other mem, List.infix_cons_iff, List.cons_prefix_cons] at there
      cases there with
      | inl front =>
        have here := prefix_encode known plain front.2
        exact ⟨front.1 ▸ mem,
          (List.cons_prefix_cons.mpr ⟨front.1, here⟩).isInfix⟩
      | inr later =>
        have rest := ih later
        exact ⟨rest.1, List.infix_cons rest.2⟩

/-! ### The five passes -/

theorem entity_settles (is : entity c = some pattern) :
    (onePattern pattern c long).Settles id := by
  obtain ⟨mem, tail, rfl, -, plain⟩ := entity_shape is
  exact onePattern_settles (fun mem => plain _ mem (by decide)) fun there => plain _ there mem

/-- While ampersands are escaped, a pass only undoes its own escapes. -/
theorem pass_escaped (known : ∀ d ∈ chars, d ∈ notAllowed) (is : entity c = some pattern)
    (fresh : c ∉ chars) (escaped : ampersand ∈ chars) (s : Text) :
    (onePattern pattern c long).exhaust id (encode (c :: chars) s) 0 = encode chars s := by
  apply (entity_settles is).exhaust_eq (encode_steps is fresh s)
  exact onePattern_normal.mpr fun there => (infix_encode known is fresh there).1 escaped

/-- Once they are not, it also decodes what stands in the string. -/
theorem pass_bare (known : ∀ d ∈ chars, d ∈ notAllowed) (is : entity c = some pattern)
    (fresh : c ∉ chars) (bare : ampersand ∉ chars) (s : Text) :
    (onePattern pattern c long).exhaust id (encode (c :: chars) s) 0 =
      encode chars ((onePattern pattern c long).exhaust id s 0) := by
  have settles : (onePattern pattern c long).Settles id := entity_settles is
  obtain ⟨-, tail, rfl, -, plain⟩ := entity_shape is
  have unescaped : ∀ d ∈ ampersand :: tail, d ∉ chars := by
    intro d mem there
    rw [List.mem_cons] at mem
    cases mem with
    | inl first => exact bare (first ▸ there)
    | inr later => exact plain d later (known d there)
  apply settles.exhaust_eq
  · exact (encode_steps is fresh s).trans
      (encode_lift unescaped fresh (Rules.exhaust_steps s 0))
  · refine onePattern_normal.mpr fun there => ?_
    exact onePattern_normal.mp (settles.normal s) (infix_encode known is fresh there).2

/-- What comes back from `id2xml` and `xml2id`. -/
theorem xml2id_id2xml (s : Text) :
    xml2id (id2xml s) =
      quotRules.exhaust id (aposRules.exhaust id (ampRules.exhaust id s 0) 0) 0 := by
  have passes : ∀ s, xml2id (encode notAllowed s) =
      quotRules.exhaust id (aposRules.exhaust id (ampRules.exhaust id s 0) 0) 0 := by
    intro s
    unfold xml2id notAllowed gtRules ltRules ampRules aposRules quotRules
    dsimp only
    rw [pass_escaped (List.forall_iff_forall_mem.mp (by decide)) rfl (by decide) (by decide),
      pass_escaped (List.forall_iff_forall_mem.mp (by decide)) rfl (by decide) (by decide),
      pass_bare (List.forall_iff_forall_mem.mp (by decide)) rfl (by decide) (by decide),
      pass_bare (List.forall_iff_forall_mem.mp (by decide)) rfl (by decide) (by decide),
      pass_bare (List.forall_iff_forall_mem.mp (by decide)) rfl (by decide) (by decide),
      encode_nil]
  rw [id2xml_encode, passes]

/-! ### What is escaped -/

theorem mem_id2xml {c : UInt8} (mem : c ∈ id2xml s) : c = ampersand ∨ c ∉ notAllowed := by
  rw [id2xml_encode, encode, List.mem_flatMap] at mem
  obtain ⟨d, -, mem⟩ := mem
  split at mem
  next there =>
    obtain ⟨q, is, -, -⟩ := entity_recognized (by simpa using there)
    obtain ⟨-, tail, rfl, -, plain⟩ := entity_shape is
    rw [is, Option.getD_some, List.mem_cons] at mem
    exact mem.imp_right (plain c)
  next other =>
    rw [List.mem_singleton] at mem
    exact .inr (by simpa [mem] using other)

/-- Every ampersand begins the entity of a character. -/
theorem ampersand_id2xml (a b : Text) (split : id2xml s = a ++ ampersand :: b) :
    ∃ c ∈ notAllowed, ∃ pattern, entity c = some pattern ∧ pattern <+: ampersand :: b := by
  rw [id2xml_encode] at split
  induction s generalizing a with
  | nil => simp [encode] at split
  | cons d s ih =>
    by_cases mem : d ∈ notAllowed
    · obtain ⟨q, is, -, -⟩ := entity_recognized mem
      have shape := entity_shape is
      obtain ⟨-, tail, rfl, -, plain⟩ := shape
      rw [encode_cons_mem mem, is, Option.getD_some] at split
      cases a with
      | nil =>
        rw [List.nil_append] at split
        exact ⟨d, mem, _, is, split ▸ List.prefix_append _ _⟩
      | cons e a =>
        simp only [List.cons_append, List.cons.injEq] at split
        have behind : ampersand ∉ tail := fun mem => plain _ mem (by decide)
        obtain ⟨x, -, later⟩ | ⟨x, here, later⟩ := List.append_eq_append_iff.mp split.2
        · exact ih x later
        · cases x with
          | nil => exact ih [] later.symm
          | cons f x =>
            simp only [List.cons_append, List.cons.injEq] at later
            exact absurd (by simp [here, later.1]) behind
    · rw [encode_cons_other mem] at split
      cases a with
      | nil =>
        simp only [List.nil_append, List.cons.injEq] at split
        exact absurd (split.1 ▸ by decide) mem
      | cons e a =>
        simp only [List.cons_append, List.cons.injEq] at split
        exact ih a split.2

/-! ### The round trip -/

/-- The string comes back, and what `id2xml` has made of it is free of markup. -/
def ComesBack (s : Text) : Prop :=
  xml2id (id2xml s) = s ∧
    less ∉ id2xml s ∧ greater ∉ id2xml s ∧ quote ∉ id2xml s ∧ apostrophe ∉ id2xml s ∧
    ∀ a b, id2xml s = a ++ ampersand :: b →
      ∃ e ∈ [gtEntity, ltEntity, ampEntity, aposEntity, quotEntity], e <+: ampersand :: b

theorem entity_listed (is : entity c = some pattern) :
    pattern ∈ [gtEntity, ltEntity, ampEntity, aposEntity, quotEntity] := by
  unfold entity at is
  split_ifs at is <;> cases is <;> simp

theorem pass_same {r : Rules UInt8} {again : Nat → Nat} (settles : r.Settles again)
    (same : (r.exhaust again s 0).length = s.length) : r.Normal s ∧ r.exhaust again s 0 = s :=
  have normal := (settles.exhaust_same s).mp same
  ⟨normal, settles.exhaust_eq .refl normal⟩

theorem last_passes_iff (s : Text) :
    quotRules.exhaust id (aposRules.exhaust id (ampRules.exhaust id s 0) 0) 0 = s ↔
      ¬ ampEntity <:+: s ∧ ¬ aposEntity <:+: s ∧ ¬ quotEntity <:+: s := by
  have amp : ampRules.Settles id := entity_settles (c := ampersand) rfl
  have apos : aposRules.Settles id := entity_settles (c := apostrophe) rfl
  have quot : quotRules.Settles id := entity_settles (c := quote) rfl
  constructor
  · intro back
    have total := congrArg List.length back
    have first := Rules.exhaust_length ampRules id s
    have second := Rules.exhaust_length aposRules id (ampRules.exhaust id s 0)
    have third := Rules.exhaust_length quotRules id
      (aposRules.exhaust id (ampRules.exhaust id s 0) 0)
    obtain ⟨normal, kept⟩ := pass_same (s := s) amp (by omega)
    rw [kept] at second third total
    obtain ⟨normal', kept'⟩ := pass_same (s := s) apos (by omega)
    rw [kept'] at third total
    obtain ⟨normal'', -⟩ := pass_same (s := s) quot (by omega)
    exact ⟨onePattern_normal.mp normal, onePattern_normal.mp normal',
      onePattern_normal.mp normal''⟩
  · intro absent
    rw [amp.exhaust_eq .refl (onePattern_normal.mpr absent.1),
      apos.exhaust_eq .refl (onePattern_normal.mpr absent.2.1),
      quot.exhaust_eq .refl (onePattern_normal.mpr absent.2.2)]

/-- A text comes back exactly if it has none of the entities that are put in first. -/
theorem xml_comes_back_iff (s : Text) :
    ComesBack s ↔ ¬ ampEntity <:+: s ∧ ¬ aposEntity <:+: s ∧ ¬ quotEntity <:+: s := by
  have absent : ∀ c ∈ notAllowed, c ≠ ampersand → c ∉ id2xml s := fun c bad other mem =>
    (mem_id2xml mem).elim other fun fine => fine bad
  unfold ComesBack
  rw [xml2id_id2xml, last_passes_iff, and_iff_left_iff_imp]
  intro _
  refine ⟨absent _ (by decide) (by decide), absent _ (by decide) (by decide),
    absent _ (by decide) (by decide), absent _ (by decide) (by decide), ?_⟩
  intro a b split
  obtain ⟨c, _, pattern, is, front⟩ := ampersand_id2xml a b split
  exact ⟨pattern, entity_listed is, front⟩

/-- The entity of an apostrophe, in a string, comes back as an apostrophe. -/
theorem apostrophe_decoded_twice : ¬ ComesBack aposEntity := by
  intro back
  have decoded : xml2id (id2xml aposEntity) = [apostrophe] := by
    rw [xml2id_id2xml]
    decide +kernel
  rw [back.1] at decoded
  exact absurd decoded (by decide)

end Libdap.Guarantees.XmlEntities
