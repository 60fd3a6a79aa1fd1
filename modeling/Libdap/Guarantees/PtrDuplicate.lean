import Libdap.Source.Variables

/-!
# What ptr_duplicate makes

`ptr_duplicate` of a whole variable succeeds, its result is a copy in cells of its
own, and no cell that was there before has changed. The copy functions and the loops
they share have one rule each, for a copier that is right up to some depth.
-/
namespace Libdap.Guarantees.PtrDuplicate
open Libdap.Library Libdap.Source Libdap.Source.Variables

/-- What `ptr_duplicate` copies: an array has `d_length` elements. -/
def parts (v : Variable) : List Nat :=
  match v.contents with
  | .simple _ => []
  | .array dims template _ elements _ _ _ =>
    template.toList ++ elements.take dims.length.toNat
  | .structure vars => vars
  | .sequence _ vars values => vars ++ values.flatten
  | .grid _ arrayVar mapVars => arrayVar.toList ++ mapVars

def members (v : Variable) : List Nat :=
  match v.contents with
  | .array _ template _ _ _ _ _ => template.toList
  | .sequence _ vars _ => vars
  | .grid _ arrayVar mapVars => arrayVar.toList ++ mapVars
  | .structure vars => vars
  | .simple _ => []

/-- A variable without its pointers. -/
def detach (contents : Contents Nat) : Contents Unit :=
  let unit := fun _ => ()
  match contents with
  | .simple value => .simple value
  | .array dims template type elements strings buf capacity =>
    .array dims (template.map unit) type ((elements.take dims.length.toNat).map unit) strings buf
      capacity
  | .structure vars => .structure (vars.map unit)
  | .sequence state vars values => .sequence state (vars.map unit) (values.map (·.map unit))
  | .grid vars arrayVar mapVars =>
    .grid (vars.map unit) (arrayVar.map unit) (mapVars.map unit)

mutual

/-- Neither an alias nor of unknown type, nor is anything below. -/
def IsPlain : AttrEntry → Prop
  | .values .. => True
  | .container _ attrMap => IsPlainTable attrMap
  | .alias .. | .unknown .. => False

def IsPlainTable : AttrTable → Prop
  | [] => True
  | e :: rest => IsPlain e ∧ IsPlainTable rest

end

mutual

theorem copy_plain {e : AttrEntry} (plain : IsPlain e) : e.copy = e := by
  cases e with
  | values name type attr => rfl
  | container name attrMap =>
    unfold IsPlain at plain
    rw [AttrEntry.copy, copyAttr_plain plain]
  | «alias» | unknown => exact plain.elim

/-- A table without aliases and attributes of unknown type is copied as it is. -/
theorem copyAttr_plain {attr : AttrTable} (plain : IsPlainTable attr) : copyAttr attr = attr := by
  cases attr with
  | nil => rfl
  | cons e rest =>
    unfold IsPlainTable at plain
    rw [copyAttr, copy_plain plain.1, copyAttr_plain plain.2]

end

theorem blank_plain {v : Variable} (plain : IsPlainTable v.base.attr) :
    v.blank = { v with contents := v.contents.blank } := by
  unfold Variable.blank
  rw [copyAttr_plain plain]

/-- The buffer of an array holds as many numbers as the array is long. -/
def BufferFits (type : VarType) (length : Int) (buf : Option (List UInt8)) : Prop :=
  ∀ val, buf = some val →
    ∃ width, type.cardinalWidth = some width ∧ val.length = vectorWidth length width

/-- An array with values has them all; a Grid has an array, and its `d_vars` are the array
and the maps. -/
def SoundContents (contents : Contents Nat) : Prop :=
  match contents with
  | .array dims _ type elements _ buf _ =>
    (elements = [] ∨ (0 ≤ dims.length ∧ dims.length ≤ elements.length)) ∧
      BufferFits type dims.length buf
  | .grid vars arrayVar mapVars =>
    arrayVar.isSome ∧ vars.Perm (arrayVar.toList ++ mapVars)
  | _ => True

/-- A variable that can be copied; its attributes can be too. -/
structure Sound (v : Variable) : Prop where
  plain : IsPlainTable v.base.attr
  contents : SoundContents v.contents

theorem copyBuf_fits {type : VarType} {length : Int} {buf : Option (List UInt8)}
    (fits : BufferFits type length buf) : copyBuf type length buf = .ok buf := by
  cases buf with
  | none => rfl
  | some val =>
    obtain ⟨width, cardinal, count⟩ := fits val rfl
    have copied : val2buf type length val = .ok val := by
      unfold val2buf
      simp only [cardinal]
      rw [if_pos (Nat.le_of_eq count.symm), ← count, List.take_length]
    change (val2buf type length val >>= _) = _
    rw [copied]
    rfl

theorem members_parts (v : Variable) : members v ⊆ parts v := by
  intro c member
  unfold members at member
  unfold parts
  split at member <;> simp_all

def layout : Layout Variable (BaseType × Contents Unit) where
  parts := parts
  members := members
  members_parts := members_parts
  parent := Variable.parent
  shape := fun v => (v.base, detach v.contents)
  sound := Sound

/-- A whole variable, nested `n` deep at most. -/
abbrev Whole (m : Memory) (n a : Nat) : Prop := layout.Standing m n a

/-- A deep copy of the variable at `a` in `m₀`, in new cells from `base` on. -/
abbrev CopyOf (base : Nat) (m₀ m : Memory) (n a a' : Nat) : Prop := layout.Copy base m₀ m n a a'

/-- `duplicate` is right on all variables up to a depth, whatever else is in memory. -/
def Copies (m₀ : Memory) (n : Nat) (duplicate : Duplicate) : Prop :=
  ∀ m c, Whole m₀ n c → layout.Sees m₀ c m → ∃ c' m', duplicate m c = .ok (c', m') ∧
    m.size ≤ c' ∧ CopyOf m.size m₀ m' n c c' ∧ m.Extends m.size m'

variable {m₀ m m' : Memory} {n this base : Nat} {duplicate : Duplicate}

/-- Members and values that are there to be copied, none of which leads to `this`. -/
def Ready (m₀ : Memory) (n this : Nat) (m : Memory) (cs : List Nat) : Prop :=
  ∀ c ∈ cs, Whole m₀ n c ∧ layout.Sees m₀ c m ∧ ¬ layout.Reaches m₀ c this

theorem Ready.extends {cs : List Nat} (ready : Ready m₀ n this m cs)
    (kept : m.Extends this m') : Ready m₀ n this m' cs := by
  intro c mem
  obtain ⟨whole, sees, apart⟩ := ready c mem
  exact ⟨whole, sees.extends whole kept apart, apart⟩

theorem Ready.tail {c : Nat} {cs : List Nat} (ready : Ready m₀ n this m (c :: cs)) :
    Ready m₀ n this m cs :=
  fun d mem => ready d (List.mem_cons_of_mem c mem)

/-- A copy made for the owner `this`. -/
abbrev Made (m₀ m : Memory) (n base this : Nat) (c c' : Nat) : Prop :=
  Layout.Placed base this (CopyOf base m₀ m n) c c'

theorem Made.mono {lower c c' : Nat} (made : Made m₀ m n base this c c') (le : lower ≤ base) :
    Made m₀ m n lower this c c' :=
  ⟨Nat.le_trans le made.fresh, made.above, made.copy.mono le⟩

/-- Copies stay copies while only their owner and new cells change. -/
theorem Made.extends {c c' : Nat} (made : Made m₀ m n base this c c')
    (kept : m.Extends this m') (old : this < base) : Made m₀ m' n base this c c' :=
  ⟨made.fresh, made.above, made.copy.extends kept (Nat.ne_of_gt made.above) old⟩

/-- `ptr_duplicate` and `set_parent` for one member. -/
theorem member_copied {c : Nat} (copies : Copies m₀ n duplicate)
    (whole : Whole m₀ n c) (sees : layout.Sees m₀ c m) (old : this < m.size) :
    ∃ c' m₁, duplicate m c = .ok (c', m₁) ∧ m.Extends m.size m₁ ∧ c' < m₁.size ∧
      Made m₀ (m₁.modify c' (setParent this)) n m.size this c c' ∧
      layout.OwnedBy (m₁.modify c' (setParent this)) this c' := by
  obtain ⟨c', m₁, made, fresh, copy, kept⟩ := copies m c whole sees
  obtain ⟨v, there⟩ := copy.standing.root
  have marked : (m₁.modify c' (setParent this)).lookup c' = some (setParent this v) := by
    rw [Heap.lookup_modify_same, there]
    rfl
  refine ⟨c', m₁, made, kept, Heap.lt_of_lookup there, ⟨fresh, by omega, ?_⟩, _, marked, rfl⟩
  apply copy.frame there marked rfl (fun sound => ⟨sound.plain, sound.contents⟩) rfl rfl
  intro b y _ above present
  exact (Heap.lookup_modify_other m₁ (Nat.ne_of_gt above) _).trans present

/-- The object after `push` has been applied for each copy. -/
def pushAll (push : Nat → Variable → Variable) (cs : List Nat) (v : Variable) : Variable :=
  cs.foldl (fun v c => push c v) v

theorem copyMembers_copied (copies : Copies m₀ n duplicate) (push : Nat → Variable → Variable)
    {cs : List Nat} (ready : Ready m₀ n this m cs) (old : this < m.size) :
    ∃ cs' m', copyMembers duplicate this push m cs = .ok m' ∧
      List.Forall₂ (Made m₀ m' n m.size this) cs cs' ∧
      (∀ c' ∈ cs', layout.OwnedBy m' this c') ∧
      m'.lookup this = (m.lookup this).map (pushAll push cs') ∧ m.Extends this m' := by
  induction cs generalizing m with
  | nil =>
    refine ⟨[], m, rfl, .nil, by simp, ?_, .refl m this⟩
    cases m.lookup this <;> rfl
  | cons c cs ih =>
    obtain ⟨whole, sees, _⟩ := ready c List.mem_cons_self
    obtain ⟨c', m₁, made, kept, there, copy, owned⟩ := member_copied copies whole sees old
    have other : this ≠ c' := Nat.ne_of_lt copy.above
    have marked : m.Extends this (m₁.modify c' (setParent this)) :=
      (kept.any this).trans_fresh (.modify m₁ c' _) copy.fresh
    have pushed : m.Extends this ((m₁.modify c' (setParent this)).modify this (push c')) :=
      marked.trans (.modify _ this _)
    have same : ((m₁.modify c' (setParent this)).modify this (push c')).lookup this =
        (m.lookup this).map (push c') := by
      rw [Heap.lookup_modify_same, Heap.lookup_modify_other m₁ other,
        kept.lookup old (Nat.ne_of_lt old)]
    generalize hm₂ : (m₁.modify c' (setParent this)).modify this (push c') = m₂ at pushed same
    have step : (m₁.modify c' (setParent this)).Extends this m₂ := hm₂ ▸ .modify _ this _
    obtain ⟨cs', m', rest, copies', owned', final, kept'⟩ :=
      ih (ready.tail.extends pushed) (Nat.lt_of_lt_of_le old pushed.grows)
    refine ⟨c' :: cs', m', ?_, .cons ?_ ?_, ?_, ?_, pushed.trans kept'⟩
    · unfold copyMembers
      rw [made]
      change copyMembers duplicate this push
        ((m₁.modify c' (setParent this)).modify this (push c')) cs = .ok m'
      rw [hm₂, rest]
    · exact copy.extends (step.trans kept') old
    · exact copies'.imp fun _ _ made => made.mono pushed.grows
    · intro d mem
      cases mem with
      | head => exact owned.extends (step.trans kept') other.symm
      | tail _ later => exact owned' d later
    · rw [final, same, Option.map_map]
      rfl

/-- `ptr_duplicate` for each variable of a list. -/
theorem copyValues_fresh (copies : Copies m₀ n duplicate) {cs : List Nat}
    (ready : ∀ c ∈ cs, Whole m₀ n c ∧ layout.Sees m₀ c m) :
    ∃ cs' m', copyValues duplicate m cs = .ok (cs', m') ∧
      List.Forall₂ (fun c c' => m.size ≤ c' ∧ CopyOf m.size m₀ m' n c c') cs cs' ∧
      m.Extends m.size m' := by
  induction cs generalizing m with
  | nil => exact ⟨[], m, rfl, .nil, .refl m m.size⟩
  | cons c cs ih =>
    obtain ⟨whole, sees⟩ := ready c List.mem_cons_self
    obtain ⟨c', m₁, made, fresh, copy, kept⟩ := copies m c whole sees
    obtain ⟨v, there⟩ := copy.standing.root
    have ready₁ : ∀ d ∈ cs, Whole m₀ n d ∧ layout.Sees m₀ d m₁ := by
      intro d mem
      obtain ⟨whole_d, sees_d⟩ := ready d (List.mem_cons_of_mem c mem)
      exact ⟨whole_d, sees_d.extends whole_d kept (sees_d.not_new whole_d)⟩
    obtain ⟨cs', m', rest, copies', kept'⟩ := ih ready₁
    have below := Heap.lt_of_lookup there
    refine ⟨c' :: cs', m', ?_, .cons ⟨fresh, ?_⟩ ?_, kept.trans_fresh kept' kept.grows⟩
    · unfold copyValues
      rw [made]
      change (copyValues duplicate m₁ cs >>= _) = _
      rw [rest]
      rfl
    · have root' := (kept'.lookup below (Nat.ne_of_lt below)).trans there
      apply copy.frame there root' rfl id rfl rfl
      intro b y _ _ present
      have old := Heap.lt_of_lookup present
      exact (kept'.lookup old (Nat.ne_of_lt old)).trans present
    · exact copies'.imp fun _ _ pair =>
        ⟨Nat.le_trans kept.grows pair.1, pair.2.mono kept.grows⟩

/-- The values of a row or an array, seen from their owner. -/
theorem copyValues_copied (copies : Copies m₀ n duplicate) {cs : List Nat}
    (ready : Ready m₀ n this m cs) (old : this < m.size) :
    ∃ cs' m', copyValues duplicate m cs = .ok (cs', m') ∧
      List.Forall₂ (Made m₀ m' n m.size this) cs cs' ∧ m.Extends m.size m' := by
  obtain ⟨cs', m', made, copied, kept⟩ :=
    copyValues_fresh copies fun c mem => ⟨(ready c mem).1, (ready c mem).2.1⟩
  refine ⟨cs', m', made, ?_, kept⟩
  exact copied.imp fun _ _ pair => ⟨pair.1, Nat.lt_of_lt_of_le old pair.1, pair.2⟩

theorem copyRows_copied (copies : Copies m₀ n duplicate) {rows : List (List Nat)}
    (ready : ∀ row ∈ rows, Ready m₀ n this m row) (old : this < m.size) :
    ∃ rows' m', copyRows duplicate this m rows = .ok m' ∧
      List.Forall₂ (List.Forall₂ (Made m₀ m' n m.size this)) rows rows' ∧
      m'.lookup this = (m.lookup this).map (fun v => rows'.foldl (fun v row => pushRow row v) v) ∧
      m.Extends this m' := by
  induction rows generalizing m with
  | nil =>
    refine ⟨[], m, rfl, .nil, ?_, .refl m this⟩
    cases m.lookup this <;> rfl
  | cons row rows ih =>
    obtain ⟨row', m₁, made, copy, kept⟩ :=
      copyValues_copied copies (ready row List.mem_cons_self) old
    have pushed : m.Extends this (m₁.modify this (pushRow row')) :=
      (kept.any this).trans (.modify m₁ this _)
    have same : (m₁.modify this (pushRow row')).lookup this =
        (m.lookup this).map (pushRow row') := by
      rw [Heap.lookup_modify_same, kept.lookup old (Nat.ne_of_lt old)]
    obtain ⟨rows', m', rest, copies', final, kept'⟩ :=
      ih (fun r mem => (ready r (List.mem_cons_of_mem row mem)).extends pushed)
        (Nat.lt_of_lt_of_le old pushed.grows)
    have step : m₁.Extends this m' := .trans (.modify m₁ this _) kept'
    refine ⟨row' :: rows', m', ?_, .cons ?_ ?_, ?_, pushed.trans kept'⟩
    · unfold copyRows
      rw [made]
      exact rest
    · exact copy.imp fun _ _ made => made.extends step old
    · exact copies'.imp fun _ _ r => r.imp fun _ _ made => made.mono pushed.grows
    · rw [final, same, Option.map_map]
      rfl

theorem Ready.subset {cs ds : List Nat} (ready : Ready m₀ n this m ds) (sub : cs ⊆ ds) :
    Ready m₀ n this m cs :=
  fun c mem => ready c (sub mem)

theorem pushAll_base {push : Nat → Variable → Variable}
    (kept : ∀ c v, (push c v).base = v.base) (cs : List Nat) (v : Variable) :
    (pushAll push cs v).base = v.base := by
  induction cs generalizing v with
  | nil => rfl
  | cons c cs ih => exact (ih (push c v)).trans (kept c v)

theorem pushVar_base (c : Nat) (v : Variable) : (pushVar c v).base = v.base := rfl

theorem pushMap_base (c : Nat) (v : Variable) : (pushMap c v).base = v.base := rfl

theorem pushAll_structure (cs : List Nat) {v : Variable} {vars : List Nat}
    (contents : v.contents = .structure vars) :
    (pushAll pushVar cs v).contents = .structure (vars ++ cs) := by
  induction cs generalizing v vars with
  | nil => simpa [pushAll] using contents
  | cons c cs ih =>
    have next : (pushVar c v).contents = .structure (vars ++ [c]) := by simp [pushVar, contents]
    simpa [pushAll] using ih next

theorem pushAll_sequence (cs : List Nat) {v : Variable} {state : RowState} {vars : List Nat}
    {values : List (List Nat)} (contents : v.contents = .sequence state vars values) :
    (pushAll pushVar cs v).contents = .sequence state (vars ++ cs) values := by
  induction cs generalizing v vars with
  | nil => simpa [pushAll] using contents
  | cons c cs ih =>
    have next : (pushVar c v).contents = .sequence state (vars ++ [c]) values := by
      simp [pushVar, contents]
    simpa [pushAll] using ih next

theorem pushAll_grid (cs : List Nat) {v : Variable} {vars mapVars : List Nat}
    {arrayVar : Option Nat} (contents : v.contents = .grid vars arrayVar mapVars) :
    (pushAll pushVar cs v).contents = .grid (vars ++ cs) arrayVar mapVars := by
  induction cs generalizing v vars with
  | nil => simpa [pushAll] using contents
  | cons c cs ih =>
    have next : (pushVar c v).contents = .grid (vars ++ [c]) arrayVar mapVars := by
      simp [pushVar, contents]
    simpa [pushAll] using ih next

theorem pushAll_maps (cs : List Nat) {v : Variable} {vars mapVars : List Nat}
    {arrayVar : Option Nat} (contents : v.contents = .grid vars arrayVar mapVars) :
    (pushAll pushMap cs v).contents = .grid (vars ++ cs) arrayVar (mapVars ++ cs) := by
  induction cs generalizing v vars mapVars with
  | nil => simpa [pushAll] using contents
  | cons c cs ih =>
    have next : (pushMap c v).contents = .grid (vars ++ [c]) arrayVar (mapVars ++ [c]) := by
      simp [pushMap, contents]
    simpa [pushAll] using ih next

def pushRows (rows : List (List Nat)) (v : Variable) : Variable :=
  rows.foldl (fun v row => pushRow row v) v

theorem pushRows_base (rows : List (List Nat)) (v : Variable) :
    (pushRows rows v).base = v.base := by
  induction rows generalizing v with
  | nil => rfl
  | cons row rows ih => exact ih (pushRow row v)

theorem pushRows_sequence (rows : List (List Nat)) {v : Variable} {state : RowState}
    {vars : List Nat} {values : List (List Nat)}
    (contents : v.contents = .sequence state vars values) :
    (pushRows rows v).contents = .sequence state vars (values ++ rows) := by
  induction rows generalizing v values with
  | nil => simpa [pushRows] using contents
  | cons row rows ih =>
    have next : (pushRow row v).contents = .sequence state vars (values ++ [row]) := by
      simp [pushRow, contents]
    simpa [pushRows] using ih next

/-- Without their pointers, rows of the same lengths are the same. -/
theorem lengths_eq {R : Nat → Nat → Prop} {rows rows' : List (List Nat)}
    (paired : List.Forall₂ (List.Forall₂ R) rows rows') :
    rows'.map (fun row => List.replicate row.length ()) =
      rows.map fun row => List.replicate row.length () := by
  induction paired with
  | nil => rfl
  | cons head _ ih => rw [List.map_cons, List.map_cons, ih, head.length_eq]

theorem fetch_of_lookup {a : Nat} {v : Variable} (found : m.lookup a = some v) :
    fetch m a = .ok v := by
  simp [fetch, found]

/-! Each copy function, run on an object `this` that has the fields of BaseType already and
no members, makes it a copy of the object at `rhs`. -/
section
variable {rhs : Nat} {v w : Variable}

theorem constructorDuplicate_eq (found : m.lookup rhs = some v) :
    constructorDuplicate duplicate m this rhs =
      copyMembers duplicate this pushVar m v.vars := by
  unfold constructorDuplicate
  rw [fetch_of_lookup found]
  rfl

theorem structureDuplicate_copied (copies : Copies m₀ n duplicate)
    (found₀ : m₀.lookup rhs = some v) (found : m.lookup rhs = some v)
    (own : m.lookup this = some w) (base : w.base = v.base) {vars : List Nat}
    (class_v : v.contents = .structure vars) (class_w : w.contents = .structure [])
    (sound : Sound v) (ready : Ready m₀ n this m (parts v)) :
    ∃ m', constructorDuplicate duplicate m this rhs = .ok m' ∧
      CopyOf m.size m₀ m' (n + 1) rhs this ∧ m.Extends this m' := by
  have parts_v : parts v = vars := by simp [parts, class_v]
  have vars_v : v.vars = vars := by simp [Variable.vars, class_v]
  obtain ⟨cs', m', made, copied, owned, final, kept⟩ :=
    copyMembers_copied copies pushVar ready (Heap.lt_of_lookup own)
  rw [own, Option.map_some] at final
  have contents := pushAll_structure cs' class_w
  rw [List.nil_append] at contents
  refine ⟨m', ?_, ⟨v, _, found₀, final, ?_, ?_, ?_, ?_⟩, kept⟩
  · rw [constructorDuplicate_eq found, vars_v, ← parts_v]
    exact made
  · have same : (pushAll pushVar cs' w).base = v.base :=
      (pushAll_base pushVar_base cs' w).trans base
    simp [layout, same, detach, contents, class_v, ← copied.length_eq, parts_v]
  · refine ⟨?_, by simp [SoundContents, contents]⟩
    rw [(pushAll_base pushVar_base cs' w).trans base]
    exact sound.plain
  · have parts_w : parts (pushAll pushVar cs' w) = cs' := by simp [parts, contents]
    change List.Forall₂ _ (parts v) (parts (pushAll pushVar cs' w))
    rw [parts_w]
    exact copied
  · have members_w : members (pushAll pushVar cs' w) = cs' := by simp [members, contents]
    change ∀ c' ∈ members (pushAll pushVar cs' w), _
    rw [members_w]
    exact owned

theorem sequenceDuplicate_copied (copies : Copies m₀ n duplicate)
    (found₀ : m₀.lookup rhs = some v) (found : m.lookup rhs = some v)
    (own : m.lookup this = some w) (base : w.base = v.base) {state state' : RowState}
    {vars : List Nat} {values : List (List Nat)} (class_v : v.contents = .sequence state vars values)
    (class_w : w.contents = .sequence state' [] []) (sound : Sound v) (ready : Ready m₀ n this m (parts v)) :
    ∃ m', sequenceDuplicate duplicate m this rhs = .ok m' ∧
      CopyOf m.size m₀ m' (n + 1) rhs this ∧ m.Extends this m' := by
  have parts_v : parts v = vars ++ values.flatten := by simp [parts, class_v]
  rw [parts_v] at ready
  have old := Heap.lt_of_lookup own
  have set : m.Extends this (m.modify this (setState state)) := .modify m this _
  have ready_vars := (ready.subset (List.subset_append_left vars _)).extends set
  obtain ⟨cs', m₁, made, copied, owned, final, kept⟩ :=
    copyMembers_copied copies pushVar ready_vars (by simpa using old)
  have later : m.Extends this m₁ := set.trans kept
  have ready_rows : ∀ row ∈ values, Ready m₀ n this m₁ row := by
    intro row mem
    apply Ready.extends _ later
    apply ready.subset
    intro c inRow
    exact List.mem_append_right vars (List.mem_flatten.mpr ⟨row, mem, inRow⟩)
  obtain ⟨rows', m', made', copied', final', kept'⟩ :=
    copyRows_copied copies ready_rows (Nat.lt_of_lt_of_le old later.grows)
  have size_set : (m.modify this (setState state)).size = m.size := Heap.size_modify m this _
  rw [size_set] at copied
  rw [final, Heap.lookup_modify_same, own, Option.map_some, Option.map_some,
    Option.map_some] at final'
  have class_set : (setState state w).contents = .sequence state [] [] := by
    simp [setState, class_w]
  have contents := pushRows_sequence rows' (pushAll_sequence cs' class_set)
  rw [List.nil_append, List.nil_append] at contents
  have base_v : (pushRows rows' (pushAll pushVar cs' (setState state w))).base = v.base :=
    (pushRows_base rows' _).trans ((pushAll_base pushVar_base cs' _).trans base)
  change m'.lookup this = some (pushRows rows' (pushAll pushVar cs' (setState state w))) at final'
  have copied_vars : List.Forall₂ (Made m₀ m' n m.size this) vars cs' :=
    copied.imp fun _ _ made => made.extends kept' old
  have copied_rows : List.Forall₂ (List.Forall₂ (Made m₀ m' n m.size this)) values rows' :=
    copied'.imp fun _ _ row => row.imp fun _ _ made => made.mono later.grows
  refine ⟨m', ?_, ⟨v, _, found₀, final', ?_, ?_, ?_, ?_⟩, later.trans kept'⟩
  · unfold sequenceDuplicate
    rw [fetch_of_lookup found]
    simp only [bind, Except.bind, class_v, made]
    exact made'
  · simp [layout, base_v, detach, contents, class_v, ← copied_vars.length_eq,
      lengths_eq copied_rows]
  · exact ⟨base_v ▸ sound.plain, by simp [SoundContents, contents]⟩
  · change List.Forall₂ _ (parts v) (parts _)
    rw [parts_v]
    simp only [parts, contents]
    exact List.rel_append copied_vars (List.rel_flatten copied_rows)
  · intro c' mem
    have mem_vars : c' ∈ cs' := by simpa [layout, members, contents] using mem
    obtain ⟨c, _, made_c⟩ := Layout.partner copied_vars mem_vars
    exact (owned c' mem_vars).extends kept' (Nat.ne_of_gt made_c.above)

/-- Copying the array of a Grid is one turn of the loop that copies the maps. -/
theorem gridDuplicate_eq (found : m.lookup rhs = some v) {vars mapVars : List Nat}
    {arrayVar : Nat} (class_v : v.contents = .grid vars (some arrayVar) mapVars) :
    gridDuplicate duplicate m this rhs =
      (copyMembers duplicate this setArray m [arrayVar] >>= fun m =>
        copyMembers duplicate this pushMap m mapVars) := by
  unfold gridDuplicate
  rw [fetch_of_lookup found]
  simp only [copyMembers, class_v, bind, Except.bind]
  cases duplicate m arrayVar <;> rfl

theorem gridDuplicate_copied (copies : Copies m₀ n duplicate)
    (found₀ : m₀.lookup rhs = some v) (found : m.lookup rhs = some v)
    (own : m.lookup this = some w) (base : w.base = v.base) {vars vars' mapVars : List Nat}
    {arrayVar arrayVar' : Option Nat} (class_v : v.contents = .grid vars arrayVar mapVars)
    (class_w : w.contents = .grid vars' arrayVar' []) (sound : Sound v)
    (ready : Ready m₀ n this m (parts v)) :
    ∃ m', gridDuplicate duplicate m this rhs = .ok m' ∧
      CopyOf m.size m₀ m' (n + 1) rhs this ∧ m.Extends this m' := by
  have plain := sound.plain
  have sound := sound.contents
  simp only [SoundContents, class_v] at sound
  obtain ⟨present, perm⟩ := sound
  obtain ⟨array, rfl⟩ := Option.isSome_iff_exists.mp present
  have parts_v : parts v = [array] ++ mapVars := by simp [parts, class_v]
  rw [parts_v] at ready
  have old := Heap.lt_of_lookup own
  obtain ⟨as', m₁, made, copied, owned, final, kept⟩ :=
    copyMembers_copied copies setArray (ready.subset (List.subset_append_left [array] _)) old
  obtain ⟨array', rfl⟩ := List.length_eq_one_iff.mp copied.length_eq.symm
  obtain ⟨cs', m', made', copied', owned', final', kept'⟩ :=
    copyMembers_copied copies pushMap
      ((ready.subset (List.subset_append_right [array] _)).extends kept)
      (Nat.lt_of_lt_of_le old kept.grows)
  rw [final, own, Option.map_some, Option.map_some] at final'
  have class_set : (pushAll setArray [array'] w).contents = .grid [array'] (some array') [] := by
    simp [pushAll, setArray, class_w]
  have contents := pushAll_maps cs' class_set
  rw [List.nil_append, List.singleton_append] at contents
  have base_v : (pushAll pushMap cs' (pushAll setArray [array'] w)).base = v.base :=
    (pushAll_base pushMap_base cs' _).trans base
  have copied_all : List.Forall₂ (Made m₀ m' n m.size this) ([array] ++ mapVars)
      ([array'] ++ cs') :=
    List.rel_append (copied.imp fun _ _ made => made.extends kept' old)
      (copied'.imp fun _ _ made => made.mono kept.grows)
  have lengths := perm.length_eq
  have maps_length := copied'.length_eq
  generalize pushAll pushMap cs' (pushAll setArray [array'] w) = u at *
  refine ⟨m', ?_, ⟨v, u, found₀, final', ?_, ?_, ?_, ?_⟩, kept.trans kept'⟩
  · rw [gridDuplicate_eq found class_v, made]
    exact made'
  · simp [layout, base_v, detach, contents, class_v, ← maps_length] at lengths ⊢
    exact lengths.symm
  · exact ⟨base_v ▸ plain, by simp [SoundContents, contents]⟩
  · change List.Forall₂ _ (parts v) (parts u)
    rw [parts_v]
    simpa [parts, contents] using copied_all
  · change ∀ c' ∈ members u, _
    simp only [members, contents, Option.toList_some]
    intro c' mem
    cases List.mem_append.mp mem with
    | inl first =>
      obtain ⟨c, _, made_c⟩ := Layout.partner copied first
      exact (owned c' first).extends kept' (Nat.ne_of_gt made_c.above)
    | inr later => exact owned' c' later

theorem copyTemplate_copied (copies : Copies m₀ n duplicate) {template : Option Nat}
    (ready : Ready m₀ n this m template.toList) (old : this < m.size) :
    ∃ template' m', copyTemplate duplicate m this template = .ok (template', m') ∧
      List.Forall₂ (Made m₀ m' n m.size this) template.toList template'.toList ∧
      (∀ c' ∈ template'.toList, layout.OwnedBy m' this c') ∧ m.Extends m.size m' := by
  cases template with
  | none => exact ⟨none, m, rfl, .nil, by simp, .refl m m.size⟩
  | some var =>
    obtain ⟨whole, sees, _⟩ := ready var List.mem_cons_self
    obtain ⟨var', m₁, made, kept, there, copy, owned⟩ := member_copied copies whole sees old
    refine ⟨some var', m₁.modify var' (setParent this), ?_, .cons copy .nil, ?_, ?_⟩
    · simp only [copyTemplate, made]
      rfl
    · intro c' mem
      cases List.mem_singleton.mp mem
      exact owned
    · exact kept.trans_fresh (.modify m₁ var' _) copy.fresh

/-- An array gets the `d_length` elements it should have. -/
theorem copyElements_copied (copies : Copies m₀ n duplicate) {length : Int}
    {elements : List Nat} (sound : elements = [] ∨ (0 ≤ length ∧ length ≤ elements.length))
    (ready : Ready m₀ n this m (elements.take length.toNat)) (old : this < m.size) :
    ∃ elements' m', copyElements duplicate m length elements = .ok (elements', m') ∧
      List.Forall₂ (Made m₀ m' n m.size this) (elements.take length.toNat) elements' ∧
      (elements' = [] ∨ (0 ≤ length ∧ length ≤ elements'.length)) ∧
      m.Extends m.size m' := by
  by_cases empty : elements = []
  · subst empty
    exact ⟨[], m, rfl, by simp, .inl rfl, .refl m _⟩
  · have bounds := sound.resolve_left empty
    obtain ⟨elements', m', made, copied, kept⟩ := copyValues_copied copies ready old
    refine ⟨elements', m', ?_, copied, .inr ⟨bounds.1, ?_⟩, kept⟩
    · unfold copyElements
      rw [if_neg empty, if_pos bounds]
      exact made
    · have count := copied.length_eq
      rw [List.length_take] at count
      omega

theorem arrayDuplicate_copied (copies : Copies m₀ n duplicate)
    (found₀ : m₀.lookup rhs = some v) (found : m.lookup rhs = some v)
    (own : m.lookup this = some w) (base : w.base = v.base) {dims : Array.Dims}
    {template : Option Nat} {type : VarType} {elements : List Nat} {strings : List String}
    {buf : Option (List UInt8)} {capacity : Nat}
    (class_v : v.contents = .array dims template type elements strings buf capacity)
    (sound : Sound v) (ready : Ready m₀ n this m (parts v)) :
    ∃ m', arrayDuplicate duplicate m this rhs = .ok m' ∧
      CopyOf m.size m₀ m' (n + 1) rhs this ∧ m.Extends this m' := by
  have plain := sound.plain
  have sound := sound.contents
  simp only [SoundContents, class_v] at sound
  obtain ⟨sound, fits⟩ := sound
  have parts_v : parts v = template.toList ++ elements.take dims.length.toNat := by
    simp [parts, class_v]
  rw [parts_v] at ready
  have old := Heap.lt_of_lookup own
  obtain ⟨template', m₁, made, copied, owned, kept⟩ :=
    copyTemplate_copied copies (ready.subset (List.subset_append_left _ _)) old
  have old₁ : this < m₁.size := Nat.lt_of_lt_of_le old kept.grows
  obtain ⟨elements', m₂, made', copied', sound', kept'⟩ :=
    copyElements_copied copies sound
      ((ready.subset (List.subset_append_right template.toList _)).extends (kept.any this)) old₁
  generalize hc : Contents.array dims template' type elements' strings buf capacity = contents
  have last : m₂.Extends this (m₂.modify this (setContents contents)) := .modify m₂ this _
  have final : (m₂.modify this (setContents contents)).lookup this =
      some (setContents contents w) := by
    rw [Heap.lookup_modify_same, kept'.lookup old₁ (Nat.ne_of_lt old₁),
      kept.lookup old (Nat.ne_of_lt old), own]
    rfl
  have copied_template : List.Forall₂
      (Made m₀ (m₂.modify this (setContents contents)) n m.size this)
      template.toList template'.toList :=
    copied.imp fun _ _ made => made.extends ((kept'.any this).trans last) old
  have copied_elements : List.Forall₂
      (Made m₀ (m₂.modify this (setContents contents)) n m.size this)
      (elements.take dims.length.toNat) elements' :=
    copied'.imp fun _ _ made => (made.extends last old₁).mono kept.grows
  have count := copied'.length_eq
  have short : elements'.length ≤ dims.length.toNat := by
    rw [List.length_take] at count
    omega
  have templates : template'.map (fun _ => ()) = template.map fun _ => () := by
    have lengths := copied.length_eq
    cases template <;> cases template' <;> simp at lengths ⊢
  refine ⟨_, ?_, ⟨v, _, found₀, final, ?_, ?_, ?_, ?_⟩,
    (kept.any this).trans ((kept'.any this).trans last)⟩
  · unfold arrayDuplicate
    rw [fetch_of_lookup found]
    simp only [class_v, bind, Except.bind, made, made', copyBuf_fits fits, hc]
    rfl
  · subst hc
    simp [layout, setContents, base, detach, class_v, templates, ← count]
  · subst hc
    exact ⟨base ▸ plain, sound', fits⟩
  · subst hc
    change List.Forall₂ _ (parts v) (template'.toList ++ elements'.take dims.length.toNat)
    rw [parts_v, List.take_of_length_le short]
    exact List.rel_append copied_template copied_elements
  · subst hc
    intro c' mem
    change c' ∈ template'.toList at mem
    obtain ⟨c, _, made_c⟩ := Layout.partner copied mem
    exact (owned c' mem).extends ((kept'.any this).trans last) (Nat.ne_of_gt made_c.above)

end

/-- The copy constructor leaves the object without members before it copies them. -/
theorem ptrDuplicate_copies (m₀ : Memory) (n : Nat) : Copies m₀ n (ptrDuplicate n) := by
  induction n with
  | zero =>
    intro m c whole
    exact whole.elim
  | succ n ih =>
    intro m rhs whole sees
    have apart := sees.not_new whole
    obtain ⟨v, found₀, sound, wholeParts⟩ := whole
    have found : m.lookup rhs = some v := (sees rhs .refl).trans found₀
    generalize hm : m.alloc (some { v with contents := v.contents.blank }) = m₁
    have kept : m.Extends m.size m₁ := hm ▸ .alloc m _ m.size
    have own : m₁.lookup m.size = some { v with contents := v.contents.blank } := by
      rw [← hm]
      exact Heap.lookup_alloc_new m _
    have found₁ : m₁.lookup rhs = some v :=
      (kept.lookup (Heap.lt_of_lookup found) (Nat.ne_of_lt (Heap.lt_of_lookup found))).trans found
    have ready : Ready m₀ n m.size m₁ (parts v) := by
      intro c part
      have sees_part := sees.part found₀ part
      have apart_part : ¬ layout.Reaches m₀ c m.size := fun r => apart (.part found₀ part r)
      exact ⟨wholeParts c part, sees_part.extends (wholeParts c part) kept apart_part, apart_part⟩
    have built : ∃ m', classDuplicate (ptrDuplicate n) v.contents m₁ m.size rhs = .ok m' ∧
        CopyOf m₁.size m₀ m' (n + 1) rhs m.size ∧ m₁.Extends m.size m' := by
      cases class_v : v.contents with
      | simple value =>
        refine ⟨m₁, rfl, ⟨v, _, found₀, own, ?_, ⟨sound.plain, ?_⟩, ?_, ?_⟩, .refl m₁ m.size⟩ <;>
          simp [layout, detach, class_v, Contents.blank, SoundContents, parts, members]
      | array dims template type elements strings buf capacity =>
        exact arrayDuplicate_copied ih found₀ found₁ own rfl class_v sound ready
      | «structure» vars =>
        apply structureDuplicate_copied ih found₀ found₁ own rfl class_v _ sound ready
        simp [class_v, Contents.blank]
      | sequence state vars values =>
        apply sequenceDuplicate_copied ih found₀ found₁ own rfl class_v _ sound ready
        · exact state
        · simp [class_v, Contents.blank]
      | grid vars arrayVar mapVars =>
        apply gridDuplicate_copied ih found₀ found₁ own rfl class_v _ sound ready
        · exact []
        · exact none
        · simp [class_v, Contents.blank]
    obtain ⟨m', made, copy, later⟩ := built
    refine ⟨m.size, m', ?_, Nat.le_refl _, copy.mono kept.grows, kept.trans later⟩
    unfold ptrDuplicate
    rw [fetch_of_lookup found]
    simp only [bind, Except.bind, blank_plain sound.plain, hm, made]
    rfl

end Libdap.Guarantees.PtrDuplicate
