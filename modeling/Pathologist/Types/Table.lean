import Mathlib.Control.Monad.Basic
import Pathologist.Types.Desc

/-!
# The table of types

The table numbers descriptors in the order they are interned and lays their members out. Beside
it stand the tags: for each named struct and union the richest entry interned under the name.
A class whose name lowering only guessed registers no tag until a unit declares it; the entry it
would have registered is kept in `untagged`.

Interning an aggregate interns the types of its members, and completing an array of a tag leads
back to the members of that tag. The recursion need not end, so it runs on fuel.
-/
namespace Pathologist.Types

abbrev TypeId := ℕ

structure FieldLayout where
  name : Ident
  offset : ℕ
  size : ℕ
  typeId : TypeId
  deriving DecidableEq, Repr

/-- The size and alignment of a type, and where its members lie. -/
structure Layout where
  size : ℕ
  align : ℕ
  fields : List FieldLayout := []
  deriving DecidableEq, Repr

structure TypeInfo where
  desc : TypeDesc
  layout : Layout
  deriving DecidableEq, Repr

instance : Inhabited TypeInfo := ⟨⟨default, ⟨8, 8, []⟩⟩⟩

/-- What interning answered for a descriptor that completion may rewrite, with the state that
the answer depended on. -/
structure CanonicalAnswer where
  tag : Option TypeId
  tagDesc : Option TypeDesc
  epoch : ℕ
  id : TypeId

structure TypeTable where
  declaredStructs : List Ident := []
  definedStructs : List Ident := []
  guessedTags : List Ident := []
  untagged : Ident → Option TypeId := fun _ => none
  types : List TypeInfo := []
  interned : TypeDesc → Option TypeId := fun _ => none
  /-- The entry under the address of a shared allocation, which its content stands for. -/
  byPtr : TypeDesc → Option TypeId := fun _ => none
  canonical : TypeDesc → Option CanonicalAnswer := fun _ => none
  unionEpoch : ℕ := 0
  tags : TagKind → Ident → Option TypeId := fun _ _ => none
  needsTagCompletion : Bool := false

abbrev TableM := StateT TypeTable Option

local instance lawfulBEq_ident : LawfulBEq Ident := inferInstance

namespace TypeTable

def info (t : TypeTable) (id : TypeId) : TypeInfo := t.types.getD id default

def desc (t : TypeTable) (id : TypeId) : TypeDesc := (t.info id).desc

/-- The members an entry is laid out with. -/
def layoutFields (t : TypeTable) (id : TypeId) : List FieldLayout := (t.info id).layout.fields

def typeIdByTag (t : TypeTable) (name : Ident) (kind : TagKind) : Option TypeId := t.tags kind name

/-- A class name that was guessed and that no unit declares. -/
def IsGuessed (t : TypeTable) (name : Ident) : Prop :=
  name ∈ t.guessedTags ∧ ¬ name ∈ t.declaredStructs

instance (t : TypeTable) (name : Ident) : Decidable (t.IsGuessed name) :=
  inferInstanceAs (Decidable (_ ∧ _))

def lookupTagRef (t : TypeTable) (desc : TypeDesc) : Option TypeId :=
  desc.emptyTag.bind fun tag => t.typeIdByTag tag.2 tag.1

/-- Rewrites an empty tag, and pointers and arrays of it, to the richest layout of the tag. -/
def canonicalize (t : TypeTable) : TypeDesc → TypeDesc
  | .ptr inner => .ptr (t.canonicalize inner)
  | .array elem size => .array (t.canonicalize elem) size
  | desc => (t.lookupTagRef desc).elim desc t.desc

def canonicalState (t : TypeTable) (key : TypeDesc) : Option TypeId × Option TypeDesc × ℕ :=
  let tag := key.chainLeaf.bind fun leaf => t.typeIdByTag leaf.2 leaf.1
  (tag, tag.map t.desc, t.unionEpoch)

def tagRichness (info : TypeInfo) : ℕ := max info.layout.fields.length info.desc.fields.length

def setTag (t : TypeTable) (kind : TagKind) (name : Ident) (id : TypeId) : TypeTable :=
  { t with tags := fun k n => if k = kind ∧ n = name then some id else t.tags k n }

/-- An entry of a tag is registered where it is richer than the one registered before; the
first entry of a guessed class is kept aside. -/
def noteNamedTag (t : TypeTable) (id : TypeId) : TypeTable :=
  match (t.desc id).tag with
  | none => t
  | some (kind, name) =>
    if t.IsGuessed name then
      { t with untagged := fun n => if n = name then some ((t.untagged name).getD id)
        else t.untagged n }
    else
      match t.typeIdByTag name kind with
      | some old =>
        if tagRichness (t.info id) ≤ tagRichness (t.info old) then t else t.setTag kind name id
      | none => t.setTag kind name id

/-- Withdraws the tag that a spelling before the guess registered, the struct's if there is one. -/
def noteGuessedClass (t : TypeTable) (name : Ident) : TypeTable :=
  if name ∈ t.guessedTags then t
  else
    let t := { t with guessedTags := name :: t.guessedTags }
    if name ∈ t.declaredStructs then t
    else
      match t.tags .struct name, t.tags .union name with
      | some id, _ =>
        { t with
          tags := fun k n => if k = .struct ∧ n = name then none else t.tags k n
          untagged := fun n => if n = name then some id else t.untagged n }
      | none, some id =>
        { t with
          tags := fun k n => if k = .union ∧ n = name then none else t.tags k n
          untagged := fun n => if n = name then some id else t.untagged n }
      | none, none => t

/-- Registers the tag that the guess of a class withheld, now that the class is declared. -/
def tagDeclaredGuess (t : TypeTable) (name : Ident) : TypeTable :=
  match t.untagged name with
  | none => t
  | some id =>
    { t with untagged := fun n => if n = name then none else t.untagged n }.noteNamedTag id

def declareStruct (t : TypeTable) (name : Ident) : TypeTable :=
  if name ∈ t.declaredStructs then t
  else { t with declaredStructs := name :: t.declaredStructs }.tagDeclaredGuess name

def defineStruct (t : TypeTable) (name : Ident) : TypeTable :=
  if name ∈ t.definedStructs then t
  else
    let t := t.declareStruct name
    { t with definedStructs := name :: t.definedStructs }

/-- Declares the classes that another table declares and takes over its guesses. -/
def mergeStructDeclarations (t other : TypeTable) : TypeTable :=
  let t := other.declaredStructs.foldl declareStruct t
  { t with
    definedStructs := other.definedStructs ++ t.definedStructs
    guessedTags := other.guessedTags ++ t.guessedTags }

/-- Sheds the indices and the layouts of a header that is only merged from now on. -/
def compactForHeaderMerge (t : TypeTable) : TypeTable :=
  { t with
    interned := fun _ => none
    byPtr := fun _ => none
    canonical := fun _ => none
    tags := fun _ _ => none
    types := t.types.map fun info => { info with layout := { info.layout with fields := [] } } }

def setNeedsTagCompletion (t : TypeTable) : TypeTable := { t with needsTagCompletion := true }

def rememberCanonical (t : TypeTable) (key : TypeDesc) (id : TypeId) : TypeTable :=
  let (tag, tagDesc, epoch) := t.canonicalState key
  { t with canonical := fun d => if d = key then some ⟨tag, tagDesc, epoch, id⟩ else t.canonical d }

/-- A new entry under its descriptor. -/
def append (t : TypeTable) (desc : TypeDesc) (layout : Layout) : TypeTable :=
  { t with
    types := t.types ++ [⟨desc, layout⟩]
    byPtr := fun d => if d = desc then some t.types.length else t.byPtr d
    interned := fun d => if d = desc then some t.types.length else t.interned d }

def push (t : TypeTable) (desc : TypeDesc) (layout : Layout) : TypeTable :=
  (t.append desc layout).noteNamedTag t.types.length

/-- An entry gets another descriptor; the one it had before still names it. -/
def replace (t : TypeTable) (id : TypeId) (desc : TypeDesc) (layout : Layout) : TypeTable :=
  { t with
    types := t.types.set id ⟨desc, layout⟩
    byPtr := fun d => if d = desc then some id else t.byPtr d
    interned := fun d => if d = desc then some id else t.interned d
    unionEpoch := t.unionEpoch + 1 }

def widen (t : TypeTable) (id : TypeId) (desc : TypeDesc) (layout : Layout) : TypeTable :=
  ((t.replace id desc layout).noteNamedTag id).setNeedsTagCompletion

end TypeTable

/-! ## Layout -/

def alignUp (value align : ℕ) : ℕ :=
  if align = 0 then value else (value + align - 1) / align * align

def Scalar.layout : Scalar → Layout
  | .void => ⟨0, 1, []⟩
  | .char | .bool => ⟨1, 1, []⟩
  | .short => ⟨2, 2, []⟩
  | .int | .float => ⟨4, 4, []⟩
  | .long | .longLong | .double | .sizeT | .unknown => ⟨8, 8, []⟩

/-- The members placed so far. -/
structure Placement where
  fields : List FieldLayout := []
  offset : ℕ := 0
  maxAlign : ℕ := 1
  totalSize : ℕ := 0

def Placement.place (p : Placement) (name : Ident) (typeId : TypeId) (inner : Layout) : Placement :=
  let offset := alignUp p.offset inner.align
  { fields := p.fields ++ [⟨name, offset, inner.size, typeId⟩]
    offset := offset + inner.size
    maxAlign := max p.maxAlign inner.align
    totalSize := max p.totalSize (offset + inner.size) }

def Placement.layout (p : Placement) : Layout :=
  ⟨alignUp p.totalSize p.maxAlign, p.maxAlign, p.fields⟩

mutual
/-- The layout of a descriptor; the types of its members are interned on the way. -/
def computeLayout (intern : TypeDesc → TableM TypeId) : TypeDesc → TableM Layout
  | .scalar kind => pure kind.layout
  | .ptr _ => pure ⟨8, 8, []⟩
  | .fnPtr _ _ => pure ⟨8, 8, []⟩
  | .array elem size => do
    let inner ← computeLayout intern elem
    pure ⟨inner.size * size.getD 0, inner.align, []⟩
  | .struct _ fields => do
    let placement ← placeFields intern fields {}
    pure placement.layout
  | .union _ fields => do
    let placement ← placeFields intern fields {}
    pure placement.layout
def placeFields (intern : TypeDesc → TableM TypeId) :
    List (Ident × TypeDesc) → Placement → TableM Placement
  | [], placement => pure placement
  | (name, desc) :: rest, placement => do
    let typeId ← intern desc
    let inner ← computeLayout intern desc
    placeFields intern rest (placement.place name typeId inner)
end

def noteNeed (named : Bool) : TableM Unit :=
  modify fun t => if named then t.setNeedsTagCompletion else t

def internShared (layoutOf : TypeDesc → TableM Layout) (desc : TypeDesc) : TableM TypeId := do
  let layout ← layoutOf desc
  let id := (← get).types.length
  modify (·.push desc layout)
  pure id

/-- The entry of a descriptor that completion cannot rewrite. -/
def internedAsIs (desc : TypeDesc) : TableM (Option TypeId) := do
  if desc.canonicalizeMayRewrite then pure none
  else
    match (← get).interned desc with
    | none => pure none
    | some id =>
      noteNeed desc.hasNamedTag
      pure (some id)

/-- The entry of an empty tag that is known. -/
def internedAsTag (desc : TypeDesc) : TableM (Option TypeId) := do
  match (← get).lookupTagRef desc with
  | none => pure none
  | some id =>
    noteNeed true
    pure (some id)

/-- An answer given before, if what it depended on is as it was. -/
def internedBefore (desc : TypeDesc) : TableM (Option TypeId) := do
  let t ← get
  match if desc.canonicalizeMayRewrite then t.canonical desc else none with
  | none => pure none
  | some answer =>
    if (answer.tag, answer.tagDesc, answer.epoch) = t.canonicalState desc then
      noteNeed true
      pure (some answer.id)
    else pure none

def internLiteral (layoutOf : TypeDesc → TableM Layout) (desc : TypeDesc) : TableM TypeId := do
  match (← get).interned desc with
  | some id => pure id
  | none => internShared layoutOf desc

/-- Interning a descriptor with the tag it ends in completed. -/
def internCanonical (layoutOf : TypeDesc → TableM Layout) (desc : TypeDesc) : TableM TypeId := do
  let canonical := (← get).canonicalize desc
  noteNeed canonical.hasNamedTag
  let id ← internLiteral layoutOf canonical
  modify fun t => if desc.canonicalizeMayRewrite then t.rememberCanonical desc id else t
  pure id

def internWith (layoutOf : TypeDesc → TableM Layout) (desc : TypeDesc) : TableM TypeId := do
  match ← internedAsIs desc with
  | some id => pure id
  | none =>
    match ← internedAsTag desc with
    | some id => pure id
    | none =>
      match ← internedBefore desc with
      | some id => pure id
      | none => internCanonical layoutOf desc

def intern : ℕ → TypeDesc → TableM TypeId
  | 0, _ => failure
  | fuel + 1, desc => internWith (computeLayout (intern fuel)) desc

/-- Interning by reference: nothing is cloned where the table holds the descriptor. -/
def internRef (fuel : ℕ) (desc : TypeDesc) : TableM TypeId := do
  match ← internedAsIs desc with
  | some id => pure id
  | none =>
    match ← internedAsTag desc with
    | some id => pure id
    | none =>
      if desc.canonicalizeMayRewrite then intern (fuel + 1) desc
      else
        noteNeed desc.hasNamedTag
        internShared (computeLayout (intern fuel)) desc

/-- A descriptor in an allocation, the one shared by the live tables or another. -/
structure SharedDesc where
  desc : TypeDesc
  pooled : Bool

def internArc (fuel : ℕ) (arc : SharedDesc) : TableM TypeId := do
  let t ← get
  match if arc.desc.canonicalizeMayRewrite || !arc.pooled then none else t.byPtr arc.desc with
  | some id =>
    noteNeed arc.desc.hasNamedTag
    pure id
  | none => internRef fuel arc.desc

/-! ## Unions of layouts -/

def aggregateDesc : TagKind → Ident → List (Ident × TypeDesc) → TypeDesc
  | .struct, name, fields => .struct name fields
  | .union, name, fields => .union name fields

namespace TypeTable

/-- Members are told apart by name, those without a name by type. -/
def tagLayoutHasField (t : TypeTable) (id : TypeId) (name : Ident) (desc : TypeDesc) : Bool :=
  (t.layoutFields id).any fun field =>
    decide (field.name = name) && (!name.isEmpty || decide (t.desc field.typeId = desc))

def members (t : TypeTable) (id : TypeId) : List (Ident × TypeDesc) :=
  (t.layoutFields id).map fun field => (field.name, t.desc field.typeId)

end TypeTable

/-- A member joins those collected unless it is among them. -/
def addMember (merged : List (Ident × TypeDesc)) (incoming : Ident × TypeDesc) :
    List (Ident × TypeDesc) :=
  if merged.any fun known => decide (known.1 = incoming.1) &&
      (!incoming.1.isEmpty || decide (known.2 = incoming.2)) then merged
  else merged ++ [incoming]

def unionAggregateLayout (fuel : ℕ) (kind : TagKind) (name : Ident)
    (incoming : List (Ident × TypeDesc)) : TableM TypeId := do
  let t ← get
  match if name = [] then none else t.typeIdByTag name kind with
  | none => intern fuel (aggregateDesc kind name incoming)
  | some existing =>
    if incoming.all fun field => t.tagLayoutHasField existing field.1 field.2 then pure existing
    else do
      let desc := aggregateDesc kind name (incoming.foldl addMember (t.members existing))
      let layout ← computeLayout (intern fuel) desc
      modify (·.widen existing desc layout)
      pure existing

/-- The entry that a field of this type should have: the richest of an empty tag, or the
pointer to it. -/
def completeTypeId (fuel : ℕ) (id : TypeId) : TableM TypeId := do
  let t ← get
  match t.desc id with
  | .ptr inner =>
    let completed := t.canonicalize inner
    if completed.fields = [] then pure id else intern fuel (.ptr completed)
  | desc => pure ((t.lookupTagRef desc).getD id)

namespace TypeTable

def fieldType (t : TypeTable) (i field : ℕ) : Option TypeId :=
  (t.layoutFields i)[field]?.map (·.typeId)

def setFieldType (t : TypeTable) (i field : ℕ) (id : TypeId) : TypeTable :=
  { t with
    types := t.types.modify i fun info =>
      { info with layout := { info.layout with
        fields := info.layout.fields.modify field fun f => { f with typeId := id } } } }

end TypeTable

/-- One round of the walk: `completed` holds the answers given so far. -/
def completeField (fuel i : ℕ) (completed : List (Option TypeId)) (field : ℕ) :
    TableM (List (Option TypeId)) := do
  let old ← liftM ((← get).fieldType i field)
  let answer ← liftM completed[old]?
  let (id, completed) ← match answer with
    | some id => pure (id, completed)
    | none => do
      let id ← completeTypeId fuel old
      pure (id, completed.set old (some id))
  modify fun t => if id = old then t else t.setFieldType i field id
  pure completed

/-- The walk over the fields of every entry there is. -/
def completeFields (fuel : ℕ) : TableM Unit := do
  let n := (← get).types.length
  let _ ← (List.range n).foldlM (fun completed i => do
    let fields := ((← get).layoutFields i).length
    (List.range fields).foldlM (completeField fuel i) completed) (List.replicate n none)
  modify fun t => { t with needsTagCompletion := false }

def completeNestedTags (fuel : ℕ) : TableM Unit := do
  if (← get).needsTagCompletion then completeFields fuel else pure ()

/-! ## The operations -/

inductive Op
  | intern (desc : TypeDesc)
  | noteGuessedClass (name : Ident)
  | declareStruct (name : Ident)
  | defineStruct (name : Ident)
  | unionLayout (kind : TagKind) (name : Ident) (fields : List (Ident × TypeDesc))
  | mergeStructDeclarations (other : TypeTable)
  | completeNestedTags
  | compactForHeaderMerge

def Op.apply (fuel : ℕ) : Op → TableM Unit
  | .intern desc => discard (Types.intern fuel desc)
  | .noteGuessedClass name => modify (·.noteGuessedClass name)
  | .declareStruct name => modify (·.declareStruct name)
  | .defineStruct name => modify (·.defineStruct name)
  | .unionLayout kind name fields => discard (unionAggregateLayout fuel kind name fields)
  | .mergeStructDeclarations other => modify (·.mergeStructDeclarations other)
  -- completion interns pointers only, for which one unit of fuel is enough
  | .completeNestedTags => Types.completeNestedTags (fuel + 1)
  | .compactForHeaderMerge => modify (·.compactForHeaderMerge)

/-- An operation on a table returns and leaves this table. -/
def Op.Yields (op : Op) (t t' : TypeTable) : Prop := ∃ fuel, op.apply fuel t = some ((), t')

def Scalar.prelude : List Scalar :=
  [.void, .char, .bool, .short, .int, .long, .longLong, .float, .double, .sizeT, .unknown]

/-- The table with the types that have no parts. -/
@[irreducible] def TypeTable.new : TypeTable :=
  ((Scalar.prelude.forM fun kind => discard (intern 1 (.scalar kind)) : TableM Unit) {}).elim {}
    Prod.snd

end Pathologist.Types
