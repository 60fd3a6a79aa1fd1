import Mathlib.Logic.Relation
import Mathlib.Tactic

/-!
# Texts rewritten in place

A scan searches a text from an index on, replaces what it finds and goes on searching in the
new text. An `Escape` goes on behind every element it has escaped and so treats each once. A
set of `Rules` is applied until nothing is found any more. If its windows do not disturb each other,
the text at the end does not depend on the order of the replacements.
-/
namespace Libdap.Library.Rewriting
variable {α : Type}

/-! ## Searching and replacing -/

/-- The text with `t` in place of the `n` elements at `i`. -/
def replace (s : List α) (i n : Nat) (t : List α) : List α := s.take i ++ t ++ s.drop (i + n)

theorem replace_append (a w b t : List α) :
    replace (a ++ w ++ b) a.length w.length t = a ++ t ++ b := by
  simp [replace, List.append_assoc, ← List.drop_drop]

theorem replace_one (a : List α) (c : α) (b t : List α) :
    replace (a ++ c :: b) a.length 1 t = a ++ (t ++ b) := by
  simpa using replace_append a [c] b t

/-- The first index from which on the rest of the text, which is not empty, is as wanted. -/
def search (found : List α → Bool) : List α → Option Nat
  | [] => none
  | c :: rest =>
    if found (c :: rest) then some 0 else (search found rest).map (· + 1)

def searchFrom (found : List α → Bool) (s : List α) (i : Nat) : Option Nat :=
  (search found (s.drop i)).map (· + i)

theorem search_none {found : List α → Bool} {s : List α} (nothing : search found s = none)
    {a b : List α} (split : s = a ++ b) (rest : b ≠ []) : found b = false := by
  induction s generalizing a with
  | nil =>
    rw [(List.append_eq_nil_iff.mp split.symm).2] at rest
    contradiction
  | cons c s ih =>
    unfold search at nothing
    split at nothing
    · cases nothing
    next other =>
    cases a with
    | nil =>
      rw [List.nil_append] at split
      simpa [← split] using other
    | cons d a =>
      simp only [List.cons_append, List.cons.injEq] at split
      exact ih (by simpa using nothing) split.2

theorem search_some {found : List α → Bool} {s : List α} {j : Nat}
    (place : search found s = some j) :
    ∃ a b, s = a ++ b ∧ a.length = j ∧ b ≠ [] ∧ found b = true ∧
      ∀ a₁ a₂, a = a₁ ++ a₂ → a₂ ≠ [] → found (a₂ ++ b) = false := by
  induction s generalizing j with
  | nil => cases place
  | cons c s ih =>
    unfold search at place
    split at place
    next here =>
      refine ⟨[], c :: s, rfl, by simpa using place, by simp, here, ?_⟩
      intro a₁ a₂ empty visible
      exact absurd (List.append_eq_nil_iff.mp empty.symm).2 visible
    next other =>
      obtain ⟨k, found_k, rfl⟩ := Option.map_eq_some_iff.mp place
      obtain ⟨a, b, rfl, rfl, rest, here, before⟩ := ih found_k
      refine ⟨c :: a, b, rfl, rfl, rest, here, ?_⟩
      intro a₁ a₂ split visible
      cases a₁ with
      | nil =>
        subst split
        simpa using other
      | cons d a₁ =>
        simp only [List.cons_append, List.cons.injEq] at split
        exact before a₁ a₂ split.2 visible

/-- What a search from an index on has found. -/
theorem searchFrom_some {found : List α → Bool} {s : List α} {i j : Nat}
    (place : searchFrom found s i = some j) :
    ∃ a b, s = a ++ b ∧ a.length = j ∧ i ≤ j ∧ b ≠ [] ∧ found b = true ∧
      ∀ a₁ a₂, a.drop i = a₁ ++ a₂ → a₂ ≠ [] → found (a₂ ++ b) = false := by
  obtain ⟨k, found_k, rfl⟩ := Option.map_eq_some_iff.mp place
  obtain ⟨a, b, split, rfl, rest, here, before⟩ := search_some found_k
  have inside : i ≤ s.length := by
    by_contra beyond
    rw [List.drop_eq_nil_of_le (by omega)] at split
    exact rest (List.append_eq_nil_iff.mp split.symm).2
  refine ⟨s.take i ++ a, b, ?_, by simp; omega, by omega, rest, here, ?_⟩
  · rw [List.append_assoc, ← split, List.take_append_drop]
  · intro a₁ a₂ same visible
    rw [List.drop_append_of_le_length (by simp; omega), List.drop_eq_nil_of_le (by simp),
      List.nil_append] at same
    exact before a₁ a₂ same visible

theorem searchFrom_none {found : List α → Bool} {s : List α} {i : Nat}
    (nothing : searchFrom found s i = none) {a b : List α} (split : s.drop i = a ++ b)
    (rest : b ≠ []) : found b = false :=
  search_none (Option.map_eq_none_iff.mp nothing) split rest

/-- What begins with an element that is not in the front part lies behind it. -/
theorem infix_skip {c : α} {tail t rest : List α} (plain : c ∉ t)
    (there : c :: tail <:+: t ++ rest) : c :: tail <:+: rest := by
  induction t with
  | nil => exact there
  | cons d t ih =>
    rw [List.mem_cons, not_or] at plain
    rw [List.cons_append, List.infix_cons_iff] at there
    cases there with
    | inl front => exact absurd (List.cons_prefix_cons.mp front).1 plain.1
    | inr later => exact ih plain.2 later

/-! ## Escapes -/

/-- Elements that are escaped, and how. The scan goes on `step` elements behind the place of
the element, from where the rest of the escape needs none itself. -/
structure Escape (α : Type) where
  escaped : α → Bool
  escape : α → List α
  step : Nat
  covers : ∀ c, escaped c = true → step ≤ (escape c).length
  plain : ∀ c, escaped c = true → ∀ d ∈ (escape c).drop step, escaped d = false

namespace Escape
variable (e : Escape α)

def atFront : List α → Bool
  | [] => false
  | c :: _ => e.escaped c

def images (c : α) : List α := if e.escaped c then e.escape c else [c]

theorem images_plain {s : List α} (plain : ∀ c ∈ s, e.escaped c = false) :
    s.flatMap e.images = s := by
  induction s with
  | nil => rfl
  | cons c s ih =>
    rw [List.flatMap_cons, ih fun d mem => plain d (List.mem_cons_of_mem _ mem)]
    simp [images, plain c]

theorem count_shrinks {s : List α} {i j : Nat} {c : α} {rest : List α}
    (place : searchFrom e.atFront s i = some j) (there : s.drop j = c :: rest) :
    ((replace s j 1 (e.escape c)).drop (j + e.step)).countP e.escaped <
      (s.drop i).countP e.escaped := by
  obtain ⟨a, b, rfl, rfl, later, visible, found, -⟩ := searchFrom_some place
  rw [List.drop_left] at there
  subst there
  have escaped : e.escaped c = true := found
  have rest_plain : ((e.escape c).drop e.step).countP e.escaped = 0 := by
    rw [List.countP_eq_zero]
    intro d mem
    simp [e.plain c escaped d mem]
  have before : (a ++ c :: rest).drop i = a.drop i ++ c :: rest :=
    List.drop_append_of_le_length later
  rw [replace_one, ← List.drop_drop, List.drop_left,
    List.drop_append_of_le_length (e.covers c escaped), List.countP_append, rest_plain,
    before, List.countP_append, List.countP_cons_of_pos escaped]
  omega

/-- `while ((i = s.find_first_of(escaped, i)) != npos) { s.replace(i, 1, escape(s[i])); i += step; }` -/
def scan (s : List α) (i : Nat) : List α :=
  match _ : searchFrom e.atFront s i with
  | none => s
  | some j =>
    match _ : s.drop j with
    | [] => s
    | c :: _ => scan (replace s j 1 (e.escape c)) (j + e.step)
termination_by (s.drop i).countP e.escaped
decreasing_by exact e.count_shrinks ‹_› ‹_›

/-- Behind `i` every element is escaped once. -/
theorem scan_eq (s : List α) (i : Nat) :
    e.scan s i = s.take i ++ (s.drop i).flatMap e.images := by
  fun_induction scan e s i with
  | case1 s i nothing =>
    have plain : ∀ c ∈ s.drop i, e.escaped c = false := by
      intro c mem
      obtain ⟨x, y, split⟩ := List.append_of_mem mem
      exact searchFrom_none nothing split (by simp)
    rw [e.images_plain plain, List.take_append_drop]
  | case2 s i j place there =>
    obtain ⟨a, b, rfl, rfl, -, visible, -, -⟩ := searchFrom_some place
    simp_all
  | case3 s i j place c rest there ih =>
    obtain ⟨a, b, rfl, rfl, later, -, found, before⟩ := searchFrom_some place
    rw [List.drop_left] at there
    subst there
    have escaped : e.escaped c = true := found
    have plain : ∀ d ∈ a.drop i, e.escaped d = false := by
      intro d mem
      obtain ⟨x, y, split⟩ := List.append_of_mem mem
      exact before x (d :: y) split (by simp)
    have size := e.covers c escaped
    have behind : (a ++ (e.escape c ++ rest)).drop (a.length + e.step) =
        (e.escape c).drop e.step ++ rest := by
      rw [← List.drop_drop, List.drop_left, List.drop_append_of_le_length size]
    have front : (a ++ (e.escape c ++ rest)).take (a.length + e.step) =
        a ++ (e.escape c).take e.step := by
      rw [List.take_length_add_append, List.take_append_of_le_length size]
    have image : e.images c = e.escape c := by simp [images, escaped]
    calc e.scan (replace (a ++ c :: rest) a.length 1 (e.escape c)) (a.length + e.step)
        = a ++ ((e.escape c).take e.step ++ ((e.escape c).drop e.step ++ rest.flatMap e.images)) := by
          rw [ih, replace_one, behind, front, List.flatMap_append,
            e.images_plain (e.plain c escaped), List.append_assoc]
      _ = a.take i ++ (a.drop i ++ (e.escape c ++ rest.flatMap e.images)) := by
          rw [← List.append_assoc (List.take e.step _), List.take_append_drop,
            ← List.append_assoc (List.take i a), List.take_append_drop]
      _ = (a ++ c :: rest).take i ++ ((a ++ c :: rest).drop i).flatMap e.images := by
          rw [List.take_append_of_le_length later, List.drop_append_of_le_length later,
            List.flatMap_append, e.images_plain plain, List.flatMap_cons, image]

theorem scan_start (s : List α) : e.scan s 0 = s.flatMap e.images := by
  simp [e.scan_eq s 0]

end Escape

/-! ## Rewritings -/

/-- Windows of one width that are replaced by less. -/
structure Rules (α : Type) where
  width : Nat
  accepts : List α → Bool
  put : List α → List α
  shorter : ∀ w, w.length = width → accepts w = true → (put w).length < width

namespace Rules
variable (r : Rules α)

def atFront (s : List α) : Bool := r.width ≤ s.length && r.accepts (s.take r.width)

/-- One replacement anywhere. -/
def Step (s t : List α) : Prop :=
  ∃ a w b, w.length = r.width ∧ r.accepts w = true ∧ s = a ++ (w ++ b) ∧ t = a ++ (r.put w ++ b)

abbrev Steps : List α → List α → Prop := Relation.ReflTransGen r.Step

/-- Nothing can be replaced. -/
def Normal (s : List α) : Prop :=
  ∀ a w b, s = a ++ (w ++ b) → w.length = r.width → r.accepts w = false

/-- Windows that overlap are replaced to the same effect. -/
def Apart : Prop :=
  ∀ x y z : List α, x ≠ [] → y ≠ [] → (x ++ y).length = r.width → (y ++ z).length = r.width →
    r.accepts (x ++ y) = true → r.accepts (y ++ z) = true →
    r.put (x ++ y) ++ z = x ++ r.put (y ++ z)

variable {r} {s t u : List α}

theorem atFront_window (found : r.atFront s = true) :
    ∃ w b, s = w ++ b ∧ w.length = r.width ∧ r.accepts w = true := by
  simp only [atFront, Bool.and_eq_true, decide_eq_true_eq] at found
  exact ⟨s.take r.width, s.drop r.width, (List.take_append_drop _ s).symm,
    by simp [found.1], found.2⟩

theorem atFront_append {w : List α} (width : w.length = r.width) (b : List α) :
    r.atFront (w ++ b) = r.accepts w := by
  simp [atFront, ← width]

theorem width_pos {w : List α} (width : w.length = r.width) (accepted : r.accepts w = true) :
    0 < r.width :=
  Nat.zero_lt_of_lt (r.shorter w width accepted)

theorem Step.length_lt (step : r.Step s t) : t.length < s.length := by
  obtain ⟨a, w, b, width, accepted, rfl, rfl⟩ := step
  have shorter := r.shorter w width accepted
  simp only [List.length_append]
  omega

theorem Step.around (step : r.Step s t) (a b : List α) : r.Step (a ++ (s ++ b)) (a ++ (t ++ b)) := by
  obtain ⟨c, w, d, width, accepted, rfl, rfl⟩ := step
  exact ⟨a ++ c, w, d ++ b, width, accepted, by simp, by simp⟩

theorem Steps.length_le (steps : r.Steps s t) : t.length ≤ s.length ∧ (t.length = s.length → t = s) := by
  induction steps with
  | refl => simp
  | tail _ step ih =>
    have shorter := step.length_lt
    exact ⟨by omega, by omega⟩

theorem Steps.around (steps : r.Steps s t) (a b : List α) :
    r.Steps (a ++ (s ++ b)) (a ++ (t ++ b)) := by
  induction steps with
  | refl => exact .refl
  | tail _ step ih => exact ih.tail (step.around a b)

theorem Normal.steps_eq (normal : r.Normal s) (steps : r.Steps s t) : t = s := by
  cases Relation.ReflTransGen.cases_head steps with
  | inl same => exact same.symm
  | inr more =>
    obtain ⟨_, ⟨a, w, b, width, accepted, split, -⟩, -⟩ := more
    rw [normal a w b split width] at accepted
    contradiction

/-! ### The order of the replacements -/

theorem diamond_ordered (apart : r.Apart) {a w b a' w' b' : List α}
    (width : w.length = r.width) (accepted : r.accepts w = true)
    (width' : w'.length = r.width) (accepted' : r.accepts w' = true)
    (same : a ++ (w ++ b) = a' ++ (w' ++ b')) (ordered : a.length ≤ a'.length) :
    a ++ (r.put w ++ b) = a' ++ (r.put w' ++ b') ∨
      ∃ d, r.Step (a ++ (r.put w ++ b)) d ∧ r.Step (a' ++ (r.put w' ++ b')) d := by
  obtain ⟨x, rfl⟩ : ∃ x, a' = a ++ x :=
    (List.prefix_of_prefix_length_le (List.prefix_append a (w ++ b))
      (same ▸ List.prefix_append a' (w' ++ b')) ordered).imp fun _ eq => eq.symm
  rw [List.append_assoc, List.append_cancel_left_eq] at same
  by_cases disjoint : r.width ≤ x.length
  · -- the second window lies behind the first
    obtain ⟨y, rfl⟩ : ∃ y, x = w ++ y :=
      (List.prefix_of_prefix_length_le (List.prefix_append w b)
        (same ▸ List.prefix_append x (w' ++ b')) (by omega)).imp fun _ eq => eq.symm
    rw [List.append_assoc, List.append_cancel_left_eq] at same
    subst same
    exact .inr ⟨a ++ (r.put w ++ (y ++ (r.put w' ++ b'))),
      ⟨a ++ (r.put w ++ y), w', b', width', accepted', by simp, by simp⟩,
      ⟨a, w, y ++ (r.put w' ++ b'), width, accepted, by simp, by simp⟩⟩
  · obtain ⟨y, rfl⟩ : ∃ y, w = x ++ y :=
      (List.prefix_of_prefix_length_le (same ▸ List.prefix_append x (w' ++ b'))
        (List.prefix_append w b) (by omega)).imp fun _ eq => eq.symm
    rw [List.append_assoc, List.append_cancel_left_eq] at same
    obtain ⟨z, rfl⟩ : ∃ z, w' = y ++ z :=
      (List.prefix_of_prefix_length_le (List.prefix_append y b)
        (same ▸ List.prefix_append w' b')
        (by simp only [List.length_append] at width; omega)).imp fun _ eq => eq.symm
    rw [List.append_assoc, List.append_cancel_left_eq] at same
    subst same
    by_cases visible : x = []
    · -- both are the same window
      subst visible
      have none_left : z = [] := by
        simp only [List.length_append, List.nil_append] at width width'
        exact List.length_eq_zero_iff.mp (by omega)
      subst none_left
      exact .inl (by simp)
    · have shared : y ≠ [] := by
        rintro rfl
        rw [List.append_nil] at width
        omega
      have agreed := apart x y z visible shared width width' accepted accepted'
      exact .inl (by rw [List.append_assoc, ← List.append_assoc (r.put _), agreed]; simp)

theorem diamond (apart : r.Apart) (left : r.Step s t) (right : r.Step s u) :
    t = u ∨ ∃ d, r.Step t d ∧ r.Step u d := by
  obtain ⟨a, w, b, width, accepted, rfl, rfl⟩ := left
  obtain ⟨a', w', b', width', accepted', same, rfl⟩ := right
  cases Nat.le_total a.length a'.length with
  | inl ordered => exact diamond_ordered apart width accepted width' accepted' same ordered
  | inr ordered =>
    cases diamond_ordered apart width' accepted' width accepted same.symm ordered with
    | inl agreed => exact .inl agreed.symm
    | inr joined => exact .inr (joined.imp fun _ steps => ⟨steps.2, steps.1⟩)

theorem confluent (apart : r.Apart) (left : r.Steps s t) (right : r.Steps s u) :
    Relation.Join r.Steps t u := by
  refine Relation.church_rosser ?_ left right
  intro a b c toB toC
  cases diamond apart toB toC with
  | inl same => exact ⟨b, .refl, same ▸ .refl⟩
  | inr joined =>
    obtain ⟨d, fromB, fromC⟩ := joined
    exact ⟨d, .single fromB, .single fromC⟩

/-- Windows do not overlap if what they begin with comes nowhere else in them. -/
theorem apart_of_first (e : α)
    (first : ∀ w, r.accepts w = true → ∃ tail, w = e :: tail ∧ e ∉ tail) : r.Apart := by
  intro x y z some_x some_y _ _ accepted accepted'
  obtain ⟨tail, left, absent⟩ := first _ accepted
  obtain ⟨tail', right, -⟩ := first _ accepted'
  obtain ⟨a, x, rfl⟩ := List.exists_cons_of_ne_nil some_x
  obtain ⟨b, y, rfl⟩ := List.exists_cons_of_ne_nil some_y
  simp only [List.cons_append, List.cons.injEq] at left right
  have mem : e ∈ tail := by simp [← left.2, right.1]
  exact absurd mem absent

/-- A text that is reached and in which nothing can be replaced is the only one. -/
theorem normal_unique (apart : r.Apart) (left : r.Steps s t) (right : r.Steps s u)
    (normalLeft : r.Normal t) (normalRight : r.Normal u) : t = u := by
  obtain ⟨d, toD, fromU⟩ := confluent apart left right
  rw [← normalLeft.steps_eq toD, normalRight.steps_eq fromU]

/-! ### Replacing until nothing is found -/

theorem found_step {i j : Nat} (place : searchFrom r.atFront s i = some j) :
    r.Step s (replace s j r.width (r.put ((s.drop j).take r.width))) := by
  obtain ⟨a, b, rfl, rfl, -, -, found, -⟩ := searchFrom_some place
  obtain ⟨w, b, rfl, width, accepted⟩ := atFront_window found
  refine ⟨a, w, b, width, accepted, rfl, ?_⟩
  rw [List.drop_left, ← width, List.take_left, ← List.append_assoc, replace_append,
    List.append_assoc]

variable (r) in
/-- `while ((i = s.find(i)) != npos) { s.replace(i, width, put); i = again(i); }` -/
def exhaust (again : Nat → Nat) (s : List α) (i : Nat) : List α :=
  match _ : searchFrom r.atFront s i with
  | none => s
  | some j => exhaust again (replace s j r.width (r.put ((s.drop j).take r.width))) (again j)
termination_by s.length
decreasing_by exact (found_step ‹_›).length_lt

variable {again : Nat → Nat}

theorem exhaust_steps (s : List α) (i : Nat) : r.Steps s (r.exhaust again s i) := by
  fun_induction exhaust r again s i with
  | case1 s i nothing => exact .refl
  | case2 s i j place ih => exact .head (found_step place) ih

variable (r) in
theorem exhaust_length (again : Nat → Nat) (s : List α) :
    (r.exhaust again s 0).length ≤ s.length :=
  (exhaust_steps s 0).length_le.1

variable (r) in
/-- No window begins in front of the index. -/
def Clear (s : List α) (i : Nat) : Prop :=
  ∀ a w b, s = a ++ (w ++ b) → w.length = r.width → a.length < i → r.accepts w = false

variable (r) in
/-- What a replacement leaves behind itself is clear up to where the search goes on. -/
def Resumes (again : Nat → Nat) : Prop :=
  ∀ a w b, w.length = r.width → r.accepts w = true → r.Clear (a ++ (w ++ b)) a.length →
    r.Clear (a ++ (r.put w ++ b)) (again a.length)

theorem exhaust_normal (resumes : r.Resumes again) {i : Nat} (clear : r.Clear s i) :
    r.Normal (r.exhaust again s i) := by
  fun_induction exhaust r again s i with
  | case1 s i nothing =>
    intro a w b split width
    by_cases before : a.length < i
    · exact clear a w b split width before
    · by_contra accepted
      rw [Bool.not_eq_false] at accepted
      have positive := width_pos width accepted
      have visible : w ++ b ≠ [] := by
        intro empty
        rw [(List.append_eq_nil_iff.mp empty).1] at width
        simp at width
        omega
      have later : s.drop i = a.drop i ++ (w ++ b) := by
        rw [split, List.drop_append_of_le_length (by omega)]
      have missed := searchFrom_none nothing later visible
      rw [atFront_append width, accepted] at missed
      contradiction
  | case2 s i j place ih =>
    apply ih
    obtain ⟨a, b, rfl, rfl, -, -, found, before⟩ := searchFrom_some place
    obtain ⟨w, b, rfl, width, accepted⟩ := atFront_window found
    rw [List.drop_left, ← width, List.take_left, ← List.append_assoc, replace_append,
      List.append_assoc]
    apply resumes a w b width accepted
    intro a' w' b' split width' inside
    by_cases early : a'.length < i
    · exact clear a' w' b' split width' early
    · obtain ⟨x, rfl⟩ : ∃ x, a = a' ++ x :=
        (List.prefix_of_prefix_length_le (split ▸ List.prefix_append a' (w' ++ b'))
          (List.prefix_append a (w ++ b)) (by omega)).imp fun _ eq => eq.symm
      have missed := before (a'.drop i) x (List.drop_append_of_le_length (by omega))
        (by rintro rfl; simp at inside)
      rw [List.append_assoc, List.append_cancel_left_eq] at split
      rwa [split, atFront_append width'] at missed

theorem resumes_start : r.Resumes fun _ => 0 := by
  intro a w b _ _ _ a' w' b' _ _ before
  cases before

/-- The search may go on at the place of the replacement if what stands there now comes in no
window but as its first element. -/
theorem resumes_here (visible : ∀ w, r.accepts w = true → r.put w ≠ [])
    (first : ∀ w v, r.accepts w = true → r.accepts v = true → ∀ c ∈ r.put w, c ∉ v.tail) :
    r.Resumes id := by
  intro a w b width accepted clear a' v b' split width' before
  obtain ⟨x, rfl⟩ : ∃ x, a = a' ++ x :=
    (List.prefix_of_prefix_length_le (split ▸ List.prefix_append a' (v ++ b'))
      (List.prefix_append a (r.put w ++ b)) (Nat.le_of_lt before)).imp fun _ eq => eq.symm
  rw [List.append_assoc, List.append_cancel_left_eq] at split
  by_cases inside : v.length ≤ x.length
  · obtain ⟨y, rfl⟩ : ∃ y, x = v ++ y :=
      (List.prefix_of_prefix_length_le (split ▸ List.prefix_append v b')
        (List.prefix_append x (r.put w ++ b)) inside).imp fun _ eq => eq.symm
    exact clear a' v (y ++ (w ++ b)) (by simp) width' before
  · by_contra other
    rw [Bool.not_eq_false] at other
    obtain ⟨z, rfl⟩ : ∃ z, v = x ++ z :=
      (List.prefix_of_prefix_length_le (List.prefix_append x (r.put w ++ b))
        (split ▸ List.prefix_append v b') (by omega)).imp fun _ eq => eq.symm
    rw [List.append_assoc, List.append_cancel_left_eq] at split
    obtain ⟨c, rest, put⟩ := List.exists_cons_of_ne_nil (visible w accepted)
    obtain ⟨z, rfl⟩ : ∃ rest, z = c :: rest := by
      cases z with
      | nil => simp at inside
      | cons d z =>
        rw [put] at split
        simp only [List.cons_append, List.cons.injEq] at split
        exact ⟨z, by rw [split.1]⟩
    apply first w (x ++ c :: z) accepted other c (by simp [put])
    cases x with
    | nil => simp at before
    | cons d x => simp

variable (r) in
/-- All that is known of a search that may be resumed. -/
structure Settles (again : Nat → Nat) : Prop where
  apart : r.Apart
  resumes : r.Resumes again

namespace Settles
variable (settles : r.Settles again)
include settles

theorem normal (s : List α) : r.Normal (r.exhaust again s 0) :=
  exhaust_normal settles.resumes (fun _ _ _ _ _ before => absurd before (Nat.not_lt_zero _))

theorem exhaust_eq (steps : r.Steps s t) (normal : r.Normal t) : r.exhaust again s 0 = t :=
  normal_unique settles.apart (exhaust_steps s 0) steps (settles.normal s) normal

/-- Replacements made before do not matter. -/
theorem exhaust_congr (steps : r.Steps s t) : r.exhaust again s 0 = r.exhaust again t 0 :=
  settles.exhaust_eq (steps.trans (exhaust_steps t 0)) (settles.normal t)

theorem exhaust_same (s : List α) :
    (r.exhaust again s 0).length = s.length ↔ r.Normal s := by
  constructor
  · intro same
    rw [← (exhaust_steps s 0).length_le.2 same]
    exact settles.normal s
  · intro normal
    rw [settles.exhaust_eq .refl normal]

end Settles

end Rules

end Libdap.Library.Rewriting
