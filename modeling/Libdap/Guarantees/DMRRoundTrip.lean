import Libdap.Guarantees.DMRNames
import Libdap.Guarantees.HTTPCacheIndex

/-!
# Groups through the DMR

What the printers write of a root Group is read as a Group of the same parts, but for what
`rereadTable` leaves out, and for the values of unknown types: the parser adds each variable
to the one it is in by copying it, and an attribute of an unknown type is copied without its
values.
-/
namespace Libdap.Guarantees.DMRRoundTrip
open Libdap.Source Libdap.Source.DMR Libdap.Source.D4ParserSax2
open Attributes (AttrType typeToString)
open Variables (VarType)
open Groups (D4EnumDef typeName)
open DMRTables DMRNames

/-! ## Enumerations -/

/-- The values of an integer type. -/
def InBaseType : VarType → Int → Prop
  | .int8, v => -128 ≤ v ∧ v ≤ 127
  | .byte, v | .uint8, v => 0 ≤ v ∧ v ≤ 255
  | .int16, v => -32768 ≤ v ∧ v ≤ 32767
  | .uint16, v => 0 ≤ v ∧ v ≤ 65535
  | .int32, v => -2147483648 ≤ v ∧ v ≤ 2147483647
  | .uint32, v => 0 ≤ v ∧ v ≤ 4294967295
  | .int64, v => -2 ^ 63 ≤ v ∧ v < 2 ^ 63
  | .uint64, v => 0 ≤ v ∧ v < 2 ^ 64
  | _, _ => False

/-- An integer type, and constants in its range and within 64 bits with a sign. -/
def EnumSound (e : D4EnumDef) : Prop :=
  isIntegerType e.type = true ∧
    ∀ c ∈ e.values, InBaseType e.type c.2 ∧ HTTPCacheIndex.InRange 64 c.2

theorem valid_of_inBaseType {type : VarType} {v : Int} (within : InBaseType type v) :
    isValidEnumValue type v = true := by
  cases type <;> simp only [InBaseType, isValidEnumValue, Bool.and_eq_true,
    decide_eq_true_eq] at within ⊢ <;> omega

/-- The way through an `unsigned long` of 64 bits. -/
theorem longLong_unsignedLong {v : Int} (range : HTTPCacheIndex.InRange 64 v) :
    longLong (unsignedLong v) = v := by
  obtain ⟨low, high⟩ := range
  unfold longLong unsignedLong
  split <;> omega

/-- A printed number that nothing follows. -/
theorem getLong_whole {v : Int} (range : HTTPCacheIndex.InRange 64 v) :
    (HTTPCacheIndex.Stream.getLong
      ⟨(String.ofList (ErrorText.printInt v)).toList, false⟩ 0) = (v, ⟨[], false⟩) := by
  rw [String.toList_ofList]
  obtain ⟨d, tail, shape⟩ := List.exists_cons_of_ne_nil (HTTPCacheIndex.printInt_ne_nil v)
  have dark : HTTPCacheIndex.isSpace d = false :=
    HTTPCacheIndex.printInt_dark v d (by rw [shape]; exact List.mem_cons_self)
  have skipped : HTTPCacheIndex.Stream.skip ⟨ErrorText.printInt v, false⟩ =
      some (ErrorText.printInt v) := by
    rw [shape, HTTPCacheIndex.skip_word dark]
  have signed := HTTPCacheIndex.sign_printInt v []
  rw [List.append_nil, List.append_nil] at signed
  have digits := ErrorRoundTrip.decimal_digits v.natAbs
  have all : (ErrorText.decimal v.natAbs).takeWhile ErrorText.isDigit =
      ErrorText.decimal v.natAbs := List.takeWhile_eq_self_iff.mpr digits
  have rest : (ErrorText.decimal v.natAbs).dropWhile ErrorText.isDigit = [] :=
    List.dropWhile_eq_nil_iff.mpr digits
  unfold HTTPCacheIndex.Stream.getLong HTTPCacheIndex.Stream.getNumber
  rw [skipped]
  dsimp only
  rw [signed]
  dsimp only
  rw [all, rest, if_neg (ErrorRoundTrip.decimal_ne_nil _), ErrorRoundTrip.decimal_value,
    HTTPCacheIndex.toSigned_printed range]

theorem enumConst_run {p : Parser} {s : List ParseState} {e : D4EnumDef} {item : String}
    {v : Int} (state : p.s = .insideEnumDef :: s) (definition : p.enumDef = some e)
    (within : InBaseType e.type v) (range : HTTPCacheIndex.InRange 64 v) :
    ∃ scratch, (printEnumConst item v).foldlM Parser.step p = .ok { p with
      scratch, enumDef := some { e with values := e.values ++ [(item, v)] } } := by
  let attributes := [("name", item), ("value", String.ofList (ErrorText.printInt v))]
  let q : Parser := { (p.transferXmlAttrs attributes).setState .insideEnumConst with
    enumDef := some { e with values := e.values ++ [(item, v)] } }
  have begun : p.step (.start "EnumConst" attributes) = .ok q := by
    have required : (((p.transferXmlAttrs attributes).checkRequiredAttribute
        "name").checkRequiredAttribute "value") = p.transferXmlAttrs attributes := rfl
    have helper : p.processEnumConstHelper attributes = .ok q := by
      unfold Parser.processEnumConstHelper
      rw [required]
      have text : (p.transferXmlAttrs attributes).xmlAttr "value" =
          String.ofList (ErrorText.printInt v) := rfl
      have same : (p.transferXmlAttrs attributes).enumDef = some e := definition
      dsimp only
      rw [text, getLong_whole range, same]
      dsimp only
      rw [if_neg Bool.false_ne_true, if_pos (valid_of_inBaseType within)]
      unfold addValue
      rw [longLong_unsignedLong range]
      rfl
    unfold Parser.step
    dsimp only
    unfold Parser.startElement
    rw [state]
    exact helper
  have ended : q.step (.finish "EnumConst") = .ok { p with
      scratch := { p.scratch with xmlAttrs := attributes }
      enumDef := some { e with values := e.values ++ [(item, v)] } } := rfl
  exact ⟨_, run_cons begun (run_cons ended rfl)⟩

theorem enumConsts_run {p : Parser} {s : List ParseState} {name : String} {type : VarType}
    (state : p.s = .insideEnumDef :: s) : ∀ (more done : List (String × Int)),
      (∀ c ∈ more, InBaseType type c.2 ∧ HTTPCacheIndex.InRange 64 c.2) →
      p.enumDef = some ⟨name, type, done⟩ →
      ∃ scratch, (more.flatMap fun c => printEnumConst c.1 c.2).foldlM Parser.step p =
        .ok { p with scratch, enumDef := some ⟨name, type, done ++ more⟩ } := by
  intro more
  induction more generalizing p with
  | nil =>
    intro done _ definition
    refine ⟨p.scratch, ?_⟩
    rw [List.append_nil, ← definition]
    rfl
  | cons c cs ih =>
    intro done each definition
    obtain ⟨within, range⟩ := each c List.mem_cons_self
    obtain ⟨scratch, run⟩ : ∃ scratch, (printEnumConst c.1 c.2).foldlM Parser.step p = .ok
        { p with scratch, enumDef := some ⟨name, type, done ++ [c]⟩ } :=
      enumConst_run state definition within range
    obtain ⟨scratch', rest⟩ := ih (p := { p with
        scratch, enumDef := some ⟨name, type, done ++ [c]⟩ }) state (done ++ [c])
      (fun c' member => each c' (List.mem_cons_of_mem _ member)) rfl
    refine ⟨scratch', ?_⟩
    rw [List.append_assoc] at rest
    exact run_append run rest

/-- A definition is read into the Group on top. -/
theorem enumDef_reaches {p : Parser} {s : List ParseState} {b : BaseType} {bs : List BaseType}
    {e : D4EnumDef} (sound : EnumSound e) (state : p.s = .insideGroup :: s)
    (stack : p.btStack = b :: bs) (group : b.type = .group) (empty : p.charData = "") :
    Reaches p (printEnumDef e) { p with btStack := b.addEnumeration e :: bs } := by
  obtain ⟨integer, constants⟩ := sound
  let attributes := [("name", e.name), ("basetype", typeName e.type)]
  let q : Parser := { (p.transferXmlAttrs attributes).setState .insideEnumDef with
    enumDef := some ⟨e.name, e.type, []⟩ }
  have named : getType (typeName e.type) = e.type := by
    revert integer
    cases e.type <;> simp [isIntegerType, typeName, getType]
  have begun : p.step (.start "Enumeration" attributes) = .ok q := by
    have required : (((p.transferXmlAttrs attributes).checkRequiredAttribute
        "name").checkRequiredAttribute "basetype") = p.transferXmlAttrs attributes := rfl
    have helper : p.processEnumDefHelper attributes = .ok q := by
      unfold Parser.processEnumDefHelper
      rw [required]
      have text : (p.transferXmlAttrs attributes).xmlAttr "basetype" = typeName e.type := rfl
      dsimp only
      rw [text, named, if_pos integer]
      rfl
    unfold Parser.step
    dsimp only
    unfold Parser.startElement
    rw [state]
    exact helper
  obtain ⟨scratch, run⟩ := enumConsts_run (p := q) rfl e.values [] constants rfl
  have ended : ({ q with scratch, enumDef := some ⟨e.name, e.type, [] ++ e.values⟩ } :
      Parser).step (.finish "Enumeration") = .ok { p with
        btStack := b.addEnumeration e :: bs
        scratch, enumDef := some e } := by
    change ({ q with scratch, enumDef := some ⟨e.name, e.type, [] ++ e.values⟩ } :
      Parser).endEnumDef "Enumeration" = _
    have same : ({ q with scratch, enumDef := some ⟨e.name, e.type, [] ++ e.values⟩ } :
      Parser).btStack = b :: bs := stack
    unfold Parser.endEnumDef
    rw [if_pos rfl, same]
    dsimp only
    rw [if_pos group]
    rfl
  refine ⟨scratch, some e, ?_⟩
  rw [← empty]
  exact run_cons begun (run_append run (run_cons ended rfl))

theorem withEnums_type (b : BaseType) (e : D4EnumDef) : (b.addEnumeration e).type = b.type := by
  cases b
  rfl

/-- All definitions of a Group. -/
theorem enumDefs_reaches {p : Parser} {s : List ParseState} {b : BaseType} {bs : List BaseType}
    (state : p.s = .insideGroup :: s) (stack : p.btStack = b :: bs) (group : b.type = .group)
    (empty : p.charData = "") : ∀ enums : List D4EnumDef, (∀ e ∈ enums, EnumSound e) →
      Reaches p (enums.flatMap printEnumDef) { p with
        btStack := enums.foldl (fun b e => b.addEnumeration e) b :: bs } := by
  intro enums
  induction enums generalizing p b with
  | nil =>
    intro _
    rw [List.foldl_nil, ← stack]
    exact Reaches.none empty
  | cons e es ih =>
    intro sound
    have first := enumDef_reaches (sound e List.mem_cons_self) state stack group empty
    refine first.append fun scratch enumDef => ?_
    exact ih (p := { p with
        btStack := b.addEnumeration e :: bs, scratch, enumDef, charData := "" })
      state rfl ((withEnums_type b e).trans group) rfl
      fun e' member => sound e' (List.mem_cons_of_mem _ member)

theorem addEnumerations (type : VarType) (name : String) (attr : List Attribute)
    (vars : List BaseType) : ∀ (more done : List D4EnumDef),
      more.foldl (fun b e => b.addEnumeration e) (.mk type name attr vars done) =
        BaseType.mk type name attr vars (done ++ more) := by
  intro more
  induction more with
  | nil =>
    intro done
    rw [List.append_nil]
    rfl
  | cons e es ih =>
    intro done
    rw [List.foldl_cons]
    exact (ih (done ++ [e])).trans (by rw [List.append_assoc]; rfl)

/-! ## Variables -/

/-- Byte, UInt8, Int8 to UInt64, Float32, Float64, Str, Url and URL. -/
def Simple (type : VarType) : Prop :=
  type ∈ [.byte, .uint8, .int8, .int16, .uint16, .int32, .uint32, .int64, .uint64, .float32,
    .float64, .str, .url, .url4]

mutual

/-- A simple variable, a Structure or a Sequence with a name. -/
def VarSound : BaseType → Prop
  | .mk type name attr vars enums =>
    name ≠ "" ∧ TableSound attr ∧ enums = [] ∧
      ((Simple type ∧ vars = []) ∨ type = .structure ∨ type = .sequence) ∧ VarsSound vars

def VarsSound : List BaseType → Prop
  | [] => True
  | v :: vs => VarSound v ∧ VarsSound vs

end

mutual

/-- A simple variable, a Structure or a Sequence with a name, whatever its tables hold. -/
def VarShaped : BaseType → Prop
  | .mk type name _ vars enums =>
    name ≠ "" ∧ enums = [] ∧
      ((Simple type ∧ vars = []) ∨ type = .structure ∨ type = .sequence) ∧ VarsShaped vars

def VarsShaped : List BaseType → Prop
  | [] => True
  | v :: vs => VarShaped v ∧ VarsShaped vs

end

mutual

theorem varSound_of : ∀ v : BaseType, VarShaped v → VarMade v → VarDistinct v → VarSound v
  | .mk _ _ attr vars _, shaped, made, distinct =>
    ⟨shaped.1, tableSound_of_made attr made.1 distinct.1, shaped.2.1, shaped.2.2.1,
      varsSound_of vars shaped.2.2.2 made.2 distinct.2⟩

theorem varsSound_of : ∀ vs : List BaseType, VarsShaped vs → VarsMade vs → VarsDistinct vs →
    VarsSound vs
  | [], _, _, _ => trivial
  | v :: vs, shaped, made, distinct =>
    ⟨varSound_of v shaped.1 made.1 distinct.1, varsSound_of vs shaped.2 made.2 distinct.2⟩

end

mutual

/-- What the parser makes of what is printed of a variable: a copy. -/
def rereadVar : BaseType → BaseType
  | .mk type name attr vars _ =>
    (BaseType.mk type name (rereadTable attr) (rereadVars vars) []).ptrDuplicate

def rereadVars : List BaseType → List BaseType
  | [] => []
  | v :: vs => rereadVar v :: rereadVars vs

end

/-- More members behind those there are. -/
def withVars (vs : List BaseType) : BaseType → BaseType
  | .mk type name attr vars enums => .mk type name attr (vars ++ vs) enums

theorem addVar_withVars (bt b : BaseType) :
    DMR.BaseType.addVar bt b = withVars [bt.ptrDuplicate] b := by
  cases b
  rfl

theorem withVars_type (vs : List BaseType) (b : BaseType) : (withVars vs b).type = b.type := by
  cases b
  rfl

theorem withVars_nil (b : BaseType) : withVars [] b = b := by
  cases b
  simp [withVars]

theorem withVars_append (vs ws : List BaseType) (b : BaseType) :
    withVars ws (withVars vs b) = withVars (vs ++ ws) b := by
  cases b
  simp [withVars]

/-- The state inside a variable. -/
def stateOf : VarType → ParseState
  | .structure => .insideConstructor
  | .sequence => .insideSequence
  | _ => .insideSimpleType

def Declared (type : VarType) : Prop := Simple type ∨ type = .structure ∨ type = .sequence

/-- The states in which a variable may begin. -/
def TakesVariables : ParseState → Prop
  | .insideGroup | .insideConstructor | .insideSequence => True
  | _ => False

theorem processVariable_declared {type : VarType} (declared : Declared type) (p : Parser)
    (attributes : List (String × String)) :
    p.processVariable (typeName type) attributes =
      some (p.processVariableHelper type (stateOf type) attributes) := by
  unfold Declared Simple at declared
  cases type <;> first | rfl | (exfalso; revert declared; decide)

theorem typeName_variable (type : VarType) : typeName type ≠ "Attribute" := by
  cases type <;> decide

theorem start_variable {p : Parser} {state : ParseState} {s : List ParseState}
    (at_state : p.s = state :: s) (takes : TakesVariables state) {type : VarType}
    (declared : Declared type) (name : String) :
    p.step (.start (typeName type) [("name", name)]) = .ok { p with
      s := stateOf type :: p.s
      btStack := .mk type name [] [] [] :: p.btStack
      atStack := ⟨p.btStack.length, []⟩ :: p.atStack
      scratch := { p.scratch with xmlAttrs := [("name", name)] } } := by
  have plain : p.processAttribute (typeName type) [("name", name)] = none :=
    if_neg (typeName_variable type)
  have processed := processVariable_declared declared p [("name", name)]
  have made : factory type name = some (.mk type name [] [] []) := by
    unfold Declared Simple at declared
    cases type <;> first | rfl | (exfalso; revert declared; decide)
  have helper : p.processVariableHelper type (stateOf type) [("name", name)] = .ok { p with
      s := stateOf type :: p.s
      btStack := .mk type name [] [] [] :: p.btStack
      atStack := ⟨p.btStack.length, []⟩ :: p.atStack
      scratch := { p.scratch with xmlAttrs := [("name", name)] } } := by
    have required : ((p.transferXmlAttrs [("name", name)]).setState
        (stateOf type)).checkRequiredAttribute "name" =
        (p.transferXmlAttrs [("name", name)]).setState (stateOf type) := rfl
    unfold Parser.processVariableHelper
    rw [required]
    have read : ((p.transferXmlAttrs [("name", name)]).setState (stateOf type)).xmlAttr "name" =
        name := rfl
    dsimp only
    rw [read, made]
    rfl
  unfold Parser.step
  dsimp only
  unfold Parser.startElement
  rw [at_state] at helper ⊢
  cases state <;> first
    | exact takes.elim
    | (dsimp only; rw [plain, processed]; exact helper)

theorem addToParent_constructor {p : Parser} {b : BaseType} {bs : List BaseType}
    (stack : p.btStack = b :: bs) (constructor' : isConstructorType b.type = true)
    (btp : BaseType) (kind tag : String) :
    p.addToParent btp kind tag =
      .ok { p with btStack := withVars [btp.ptrDuplicate] b :: bs } := by
  unfold Parser.addToParent
  rw [stack]
  dsimp only
  rw [constructor', Bool.or_true, if_pos rfl, addVar_withVars]

theorem finish_variable {p : Parser} {s : List ParseState} {type : VarType}
    (declared : Declared type) (state : p.s = stateOf type :: s) {btp b : BaseType}
    {bs : List BaseType} (stack : p.btStack = btp :: b :: bs) (of_type : btp.type = type)
    (constructor' : isConstructorType b.type = true) {place : Place} {below : List Place}
    (places : p.atStack = place :: below) :
    p.step (.finish (typeName type)) = .ok { p with
      s, btStack := withVars [btp.ptrDuplicate] b :: bs, atStack := below } := by
  have popped : ({ p.popState with btStack := b :: bs, atStack := below } : Parser) =
      { p with s, btStack := b :: bs, atStack := below } := by
    unfold Parser.popState
    rw [state]
    rfl
  have add : ∀ kind tag, ({ p.popState with btStack := b :: bs, atStack := below } :
      Parser).addToParent btp kind tag = .ok { p with
        s, btStack := withVars [btp.ptrDuplicate] b :: bs, atStack := below } := by
    intro kind tag
    have added := addToParent_constructor (p := { p.popState with
      btStack := b :: bs, atStack := below }) rfl constructor' btp kind tag
    rw [added, popped]
  have member : ∀ t expected, btp.type = t → typeName type = expected →
      p.finishVariable (typeName type) t expected = .ok { p with
        s, btStack := withVars [btp.ptrDuplicate] b :: bs, atStack := below } := by
    intro t expected same named
    unfold Parser.finishVariable
    rw [if_neg (not_not.mpr named), stack, places]
    dsimp only
    rw [if_neg (not_not.mpr same)]
    exact add _ _
  unfold Parser.step
  dsimp only
  unfold Parser.endElement
  rw [state]
  rcases declared with simple | rfl | rfl
  · have inside : stateOf type = .insideSimpleType := by
      unfold Simple at simple
      cases type <;> first | rfl | (exfalso; revert simple; decide)
    have named : isSimpleType (getType (typeName type)) = true := by
      unfold Simple at simple
      cases type <;> first | rfl | (exfalso; revert simple; decide)
    rw [inside]
    change p.endSimpleType (typeName type) = _
    unfold Parser.endSimpleType
    rw [if_pos named, stack, places]
    exact add _ _
  · exact member .structure "Structure" of_type rfl
  · exact member .sequence "Sequence" of_type rfl

/-- The parser that reads a variable into the one on top. -/
structure ReadyVar (p : Parser) (b : BaseType) (bs : List BaseType) : Prop where
  state : ∃ state s, p.s = state :: s ∧ TakesVariables state
  stack : p.btStack = b :: bs
  constructor' : isConstructorType b.type = true
  empty : p.charData = ""

theorem stateOf_takes (type : VarType) : TakesAttributes (stateOf type) := by
  cases type <;> exact trivial

variable (raw : String → List Event)

mutual

/-- A variable is printed, and what is printed read into the variable on top. -/
theorem var_reaches : ∀ v : BaseType, VarSound v →
    ∃ events, v.printXmlWriter raw = .ok events ∧
      ∀ p b bs, ReadyVar p b bs →
        Reaches p events { p with btStack := withVars [rereadVar v] b :: bs }
  | .mk type name attr vars enums, sound => by
    obtain ⟨named, table, rfl, kind, members⟩ := sound
    obtain ⟨attributes, printed, readsTable⟩ := table_reaches raw attr table
    obtain ⟨inner, printed', readsVars⟩ := vars_reaches vars members
    have declared : Declared type := by
      rcases kind with ⟨simple, -⟩ | kind
      · exact .inl simple
      · exact .inr kind
    refine ⟨.start (typeName type) [("name", name)] :: ([] ++ attributes ++ inner) ++
      [.finish (typeName type)], ?_, ?_⟩
    · rw [BaseType.printXmlWriter, printed, printed']
      unfold nameAttribute
      rw [if_neg named]
      rfl
    · intro p b bs ready
      obtain ⟨state, s, at_state, takes⟩ := ready.state
      have begun := start_variable at_state takes declared name
      let q : Parser := { p with
        s := stateOf type :: p.s
        btStack := .mk type name [] [] [] :: p.btStack
        atStack := ⟨p.btStack.length, []⟩ :: p.atStack
        scratch := { p.scratch with xmlAttrs := [("name", name)] } }
      have readyTable : Ready q (.mk type name [] [] []) p.btStack [] [] :=
        ⟨⟨_, _, rfl, stateOf_takes type⟩, ⟨rfl, ⟨_, rfl⟩, rfl⟩, ready.empty⟩
      have onTable : Reaches q attributes { q with
          btStack := .mk type name (rereadTable attr) [] [] :: p.btStack } :=
        readsTable q _ _ [] [] readyTable fun _ _ _ member => nomatch member
      rw [List.cons_append, List.nil_append, List.append_assoc]
      apply Reaches.next begun
      refine onTable.append fun scratch enumDef => ?_
      let r : Parser := { q with
        btStack := .mk type name (rereadTable attr) [] [] :: p.btStack
        scratch, enumDef, charData := "" }
      have onVars : Reaches r inner { r with
          btStack := .mk type name (rereadTable attr) (rereadVars vars) [] :: p.btStack } := by
        rcases kind with ⟨simple, rfl⟩ | kind
        · obtain rfl := Except.ok.inj printed'
          exact Reaches.none rfl
        · have readyVars : ReadyVar r (.mk type name (rereadTable attr) [] []) p.btStack := by
            refine ⟨⟨stateOf type, p.s, rfl, ?_⟩, rfl, ?_, rfl⟩
            · rcases kind with rfl | rfl <;> exact trivial
            · rcases kind with rfl | rfl <;> rfl
          exact readsVars r _ _ readyVars
      refine onVars.append fun scratch' enumDef' => ?_
      have ended := finish_variable (p := { r with
          btStack := .mk type name (rereadTable attr) (rereadVars vars) [] :: p.btStack
          scratch := scratch', enumDef := enumDef', charData := "" })
        declared rfl (by rw [ready.stack]) rfl ready.constructor' rfl
      exact ⟨scratch', enumDef', run_cons ended rfl⟩

theorem vars_reaches : ∀ vs : List BaseType, VarsSound vs →
    ∃ events, printVars raw vs = .ok events ∧
      ∀ p b bs, ReadyVar p b bs →
        Reaches p events { p with btStack := withVars (rereadVars vs) b :: bs }
  | [], _ => by
    refine ⟨[], rfl, ?_⟩
    intro p b bs ready
    rw [rereadVars, withVars_nil, ← ready.stack]
    exact Reaches.none ready.empty
  | v :: vs, sound => by
    obtain ⟨here, there⟩ := sound
    obtain ⟨first, printed, reads⟩ := var_reaches v here
    obtain ⟨rest, printed', reads'⟩ := vars_reaches vs there
    refine ⟨first ++ rest, ?_, ?_⟩
    · rw [printVars, printed, printed']
      rfl
    · intro p b bs ready
      refine (reads p b bs ready).append fun scratch enumDef => ?_
      have after := reads' { p with
          btStack := withVars [rereadVar v] b :: bs, scratch, enumDef, charData := "" }
        (withVars [rereadVar v] b) bs
        ⟨ready.state, rfl, (withVars_type _ b).symm ▸ ready.constructor', rfl⟩
      rw [withVars_append] at after
      exact after

end

/-! ## The reader -/

/-- The reader may report a text in pieces, and reports nothing of an empty one. -/
inductive Delivered : List Event → List Event → Prop where
  | nil : Delivered [] []
  | start (tag : String) (attributes : List (String × String)) {events events' : List Event} :
      Delivered events events' →
      Delivered (.start tag attributes :: events) (.start tag attributes :: events')
  | finish (tag : String) {events events' : List Event} :
      Delivered events events' → Delivered (.finish tag :: events) (.finish tag :: events')
  | text (pieces : List String) {events events' : List Event} :
      Delivered events events' →
      Delivered (.characters (String.join pieces) :: events)
        (pieces.map Event.characters ++ events')

theorem getCharacters_append (p : Parser) (x y : String) :
    p.getCharacters (x ++ y) = p.getCharacters x >>= fun q => q.getCharacters y := by
  rcases p with ⟨s, btStack, atStack, enumDef, scratch, charData, otherXml, depth, msg, dds⟩
  cases s with
  | nil => rfl
  | cons state s =>
    cases state <;> first
      | rfl
      | (change Except.ok _ = Except.ok _; rw [← String.append_assoc])

theorem characters_run : ∀ (pieces : List String) (p q : Parser),
    p.step (.characters (String.join pieces)) = .ok q →
    (pieces.map Event.characters).foldlM Parser.step p = .ok q := by
  intro pieces
  induction pieces with
  | nil =>
    intro p q done
    rcases p with ⟨s, btStack, atStack, enumDef, scratch, charData, otherXml, depth, msg, dds⟩
    rw [← done]
    cases s with
    | nil => cases done
    | cons state s =>
      cases state <;> first
        | rfl
        | (change Except.ok _ = Except.ok _; rw [String.join_nil, String.append_empty])
  | cons x rest ih =>
    intro p q done
    rw [String.join_cons] at done
    have split := getCharacters_append p x (String.join rest)
    change p.getCharacters (x ++ String.join rest) = .ok q at done
    rw [split] at done
    obtain ⟨m, first, later⟩ := Library.bind_success done
    exact run_cons first (ih m q later)

theorem Delivered.run {events events' : List Event} (delivered : Delivered events events') :
    ∀ {p q : Parser}, events.foldlM Parser.step p = .ok q →
      events'.foldlM Parser.step p = .ok q := by
  induction delivered with
  | nil => exact id
  | start tag attributes _ ih =>
    intro p q done
    obtain ⟨m, first, later⟩ := Library.bind_success done
    exact run_cons first (ih later)
  | finish tag _ ih =>
    intro p q done
    obtain ⟨m, first, later⟩ := Library.bind_success done
    exact run_cons first (ih later)
  | text pieces _ ih =>
    intro p q done
    obtain ⟨m, first, later⟩ := Library.bind_success done
    exact run_append (characters_run pieces p m first) (ih later)

/-! ## Groups -/

/-- The Groups in question. -/
structure Root where
  name : String
  attr : List Attribute
  vars : List BaseType
  enums : List D4EnumDef
  named : name ≠ ""
  table : TableMade attr
  shaped : VarsShaped vars
  members : VarsMade vars
  enumerations : ∀ e ∈ enums, EnumSound e

def Root.group (g : Root) : BaseType := .mk .group g.name g.attr g.vars g.enums

/-- The DDS with the name of the Group, and the Group that was read. -/
def withGroup (dds : DDS) (name : String) (attr : List Attribute) (vars : List BaseType)
    (enums : List D4EnumDef) : DDS :=
  { dds with datasetName := name, vars := dds.vars ++ [.mk .group "root" attr vars enums] }

/-- No table of the Group, of its variables or of their members has a name twice. -/
def Root.Distinct (g : Root) : Prop := TableDistinct g.attr ∧ VarsDistinct g.vars

theorem Root.Distinct.table {g : Root} (distinct : g.Distinct) : TableSound g.attr :=
  tableSound_of_made g.attr g.table distinct.1

theorem Root.Distinct.members {g : Root} (distinct : g.Distinct) : VarsSound g.vars :=
  varsSound_of g.vars g.shaped g.members distinct.2

theorem parse_printed (g : Root) (distinct : g.Distinct) : ∃ events, g.group.printXmlWriter raw = .ok events ∧
    ∀ dds events', Delivered events events' → ∃ p, parse dds events' = .ok p ∧
      p.errorMsg = [] ∧
      p.dds = withGroup dds g.name (rereadTable g.attr) (rereadVars g.vars) g.enums := by
  obtain ⟨attributes, printed, readsTable⟩ := table_reaches raw g.attr distinct.table
  obtain ⟨inner, printed', readsVars⟩ := vars_reaches raw g.vars distinct.members
  refine ⟨.start "Group" [("name", g.name)] :: (g.enums.flatMap printEnumDef ++ attributes ++
    inner) ++ [.finish "Group"], ?_, ?_⟩
  · unfold Root.group
    rw [BaseType.printXmlWriter, printed, printed']
    unfold nameAttribute
    rw [if_neg g.named]
    rfl
  intro dds events' delivered
  let start := (Parser.new dds).startDocument
  let q : Parser := { start with
    s := [.insideGroup, .parserStart]
    btStack := [.mk .group "root" [] [] []]
    atStack := [⟨0, []⟩]
    scratch := { start.scratch with xmlAttrs := [("name", g.name)] }
    dds := { dds with datasetName := g.name } }
  have begun : start.step (.start "Group" [("name", g.name)]) = .ok q := rfl
  have onEnums : Reaches q (g.enums.flatMap printEnumDef) { q with
      btStack := [.mk .group "root" [] [] g.enums] } := by
    have reads := enumDefs_reaches (p := q) rfl rfl rfl rfl g.enums g.enumerations
    rw [addEnumerations, List.nil_append] at reads
    exact reads
  have whole : Reaches start (.start "Group" [("name", g.name)] ::
      (g.enums.flatMap printEnumDef ++ attributes ++ inner) ++ [.finish "Group"]) { q with
        s := [.parserStart]
        btStack := [.mk .group "root" (rereadTable g.attr) (rereadVars g.vars) g.enums] } := by
    rw [List.cons_append, List.append_assoc, List.append_assoc]
    refine Reaches.next begun (onEnums.append fun scratch enumDef => ?_)
    have onTable := readsTable { q with
        btStack := [.mk .group "root" [] [] g.enums], scratch, enumDef, charData := "" }
      (.mk .group "root" [] [] g.enums) [] [] []
      ⟨⟨_, _, rfl, trivial⟩, ⟨rfl, ⟨_, rfl⟩, rfl⟩, rfl⟩ fun _ _ _ member => nomatch member
    refine onTable.append fun scratch enumDef => ?_
    have onVars := readsVars { q with
        btStack := [.mk .group "root" (rereadTable g.attr) [] g.enums]
        scratch, enumDef, charData := "" }
      (.mk .group "root" (rereadTable g.attr) [] g.enums) []
      ⟨⟨_, _, rfl, trivial⟩, rfl, rfl, rfl⟩
    refine onVars.append fun scratch enumDef => ?_
    exact ⟨scratch, enumDef, rfl⟩
  obtain ⟨scratch, enumDef, run⟩ := whole
  have parsed : ∃ p, parse dds events' = .ok p ∧ p.errorMsg = [] ∧
      p.dds = withGroup dds g.name (rereadTable g.attr) (rereadVars g.vars) g.enums := by
    unfold parse
    rw [delivered.run run]
    exact ⟨_, rfl, rfl, rfl⟩
  exact parsed

/-! ## What comes back -/

mutual

theorem ptrDuplicate_twice : ∀ v : BaseType, v.ptrDuplicate.ptrDuplicate = v.ptrDuplicate
  | .mk type name attr vars enums => by
    rw [BaseType.ptrDuplicate, BaseType.ptrDuplicate, cloneTable_twice, duplicateAll_twice vars]

theorem duplicateAll_twice : ∀ vs : List BaseType,
    duplicateAll (duplicateAll vs) = duplicateAll vs
  | [] => rfl
  | v :: vs => by
    rw [duplicateAll, duplicateAll, ptrDuplicate_twice v, duplicateAll_twice vs]

end

theorem rereadVar_duplicate (v : BaseType) : (rereadVar v).ptrDuplicate = rereadVar v := by
  cases v with
  | mk type name attr vars enums =>
    rw [rereadVar, ptrDuplicate_twice]

theorem rereadVars_duplicate : ∀ vs : List BaseType,
    duplicateAll (rereadVars vs) = rereadVars vs
  | [] => rfl
  | v :: vs => by
    rw [rereadVars, duplicateAll, rereadVar_duplicate, rereadVars_duplicate vs]

mutual

/-- Every attribute of a variable and of its members has a value and a known type. -/
def VarKept : BaseType → Prop
  | .mk _ _ attr vars _ => (TableValued attr ∧ TableKnown attr) ∧ VarsKept vars

def VarsKept : List BaseType → Prop
  | [] => True
  | v :: vs => VarKept v ∧ VarsKept vs

end

mutual

theorem rereadVar_same : ∀ v : BaseType, VarSound v → (rereadVar v = v ↔ VarKept v)
  | .mk type name attr vars enums, sound => by
    obtain ⟨-, table, rfl, -, members⟩ := sound
    rw [rereadVar, BaseType.ptrDuplicate, rereadVars_duplicate, BaseType.mk.injEq,
      clone_rereadTable_same attr table, rereadVars_same vars members]
    exact ⟨fun same => ⟨same.2.2.1, same.2.2.2.1⟩, fun kept => ⟨rfl, rfl, kept.1, kept.2, rfl⟩⟩

theorem rereadVars_same : ∀ vs : List BaseType, VarsSound vs →
    (rereadVars vs = vs ↔ VarsKept vs)
  | [], _ => ⟨fun _ => trivial, fun _ => rfl⟩
  | v :: vs, sound => by
    rw [rereadVars, List.cons.injEq, rereadVar_same v sound.1, rereadVars_same vs sound.2]
    exact Iff.rfl

end

/-- What the printers write of the Group is read as a Group of the same enumerations,
attributes and variables, and its name as the name of the dataset. -/
def ComesBack (g : Root) : Prop :=
  ∃ events, g.group.printXmlWriter raw = .ok events ∧
    ∀ dds events', Delivered events events' → ∃ p, parse dds events' = .ok p ∧
      p.errorMsg = [] ∧ p.dds = withGroup dds g.name g.attr g.vars g.enums

/-- The names in every table are distinct, every attribute has a value, and those of variables
have a known type. -/
def Kept (g : Root) : Prop := g.Distinct ∧ TableValued g.attr ∧ VarsKept g.vars

theorem Delivered.same : ∀ events : List Event, Delivered events events
  | [] => .nil
  | .start tag attributes :: events => .start tag attributes (Delivered.same events)
  | .finish tag :: events => .finish tag (Delivered.same events)
  | .characters line :: events => by
    have whole := Delivered.text [line] (Delivered.same events)
    rw [String.join_cons, String.join_nil, String.append_empty] at whole
    exact whole

/-- The tables that come back have distinct names, so the ones that were printed had. -/
theorem distinct_of_comesBack {g : Root} (back : ComesBack raw g) : g.Distinct := by
  obtain ⟨events, printed, reads⟩ := back
  obtain ⟨p, parsed, fine, dds⟩ := reads ⟨"", "", "", []⟩ events (Delivered.same events)
  obtain ⟨q, run, ended⟩ := Library.bind_success parsed
  have plain : ∀ e ∈ events, NamePlain e :=
    printVar_plain raw g.group events ⟨g.table, g.members⟩ printed
  have tidy : Tidy q := run_tidy events (by simp [Tidy, Parser.startDocument, Parser.new, Parser.setState]) plain run
  unfold Parser.endDocument at ended
  split at ended
  · cases ended
  · split at ended
    · split at ended
      · cases ended
      · next btp bts stack =>
        cases ended
        have own := tidy btp (stack ▸ List.mem_cons_self)
        have vars := List.append_inj_right' (congrArg DDS.vars dds) rfl
        rw [List.singleton_inj.mp vars] at own
        exact own
    · cases ended
      simp [Parser.fatalError] at fine

theorem kept_of_comesBack {g : Root} (back : ComesBack raw g) : Kept g := by
  have distinct := distinct_of_comesBack raw back
  obtain ⟨events, printed, reads⟩ := back
  obtain ⟨events', printed', reads'⟩ := parse_printed raw g distinct
  obtain rfl := Except.ok.inj (printed.symm.trans printed')
  obtain ⟨p, parsed, -, dds⟩ := reads ⟨"", "", "", []⟩ events (Delivered.same events)
  obtain ⟨p', parsed', -, dds'⟩ := reads' ⟨"", "", "", []⟩ events (Delivered.same events)
  obtain rfl := Except.ok.inj (parsed.symm.trans parsed')
  have vars := congrArg DDS.vars (dds'.symm.trans dds)
  have group := List.head_eq_of_cons_eq vars
  rw [BaseType.mk.injEq] at group
  exact ⟨distinct, (rereadTable_same g.attr distinct.table).mp group.2.2.1,
    (rereadVars_same g.vars distinct.members).mp group.2.2.2.1⟩

/-- A root Group comes back from its DMR if and only if no table has a name twice, every
attribute has a value, and those of variables have a known type. -/
theorem comesBack_iff (g : Root) : ComesBack raw g ↔ Kept g := by
  constructor
  · exact kept_of_comesBack raw
  · rintro ⟨distinct, valued, kept⟩
    obtain ⟨events, printed, reads⟩ := parse_printed raw g distinct
    rw [(rereadTable_same g.attr distinct.table).mpr valued,
      (rereadVars_same g.vars distinct.members).mpr kept] at reads
    exact ⟨events, printed, reads⟩

/-- A variable with an attribute of a type that AttrTable does not know, as `Int64`. -/
def counted : Root where
  name := "g"
  attr := []
  vars := [.mk .byte "b" [.values "a" .unknown (some ["5"])] [] []]
  enums := []
  named := by decide
  table := trivial
  shaped := by
    refine ⟨⟨by decide, rfl, .inl ⟨?_, rfl⟩, trivial⟩, trivial⟩
    unfold Simple
    decide
  members := by
    refine ⟨⟨⟨⟨?_, by decide, by decide, rfl⟩, trivial⟩, trivial⟩, trivial⟩
    unfold Spaceless
    decide
  enumerations _ member := nomatch member

theorem comesBack_fails : ¬ ComesBack (fun _ => []) counted := fun back =>
  (kept_of_comesBack _ back).2.2.1.1.2.1 rfl

end Libdap.Guarantees.DMRRoundTrip
