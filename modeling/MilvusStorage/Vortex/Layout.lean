import MilvusStorage.Vortex.CellMetas
import Mathlib.Data.List.Dedup

/-!
# Layout trees

The footer of a Vortex file has a tree of layouts. A layout has segments of its own, and children,
each with a type that says what it is to the layout. `field_layout_units` looks up the physical
units of a field in the tree: the chunks of a row-group layout, or the layout of the field itself.
`zone_map_segment_ids` lists the segments of the zone maps, at any depth.

The segments listed are those of the zone maps of the tree (`mem_zoneMapSegmentIds`). In a tree
without repeated segments, a unit and a zone map share segments only if one is a part of the other
(`sparesZoneMaps_iff_of_nodup`).
-/

namespace MilvusStorage.Vortex

open Except List

inductive LayoutEncoding
  /-- `LAYOUT_ID`. -/
  | rowGroupZoneMap
  /-- `VORTEX_ZONED_LAYOUT_ID`. -/
  | zoned
  | other (id : String)
  deriving DecidableEq, Repr

def LayoutEncoding.id : LayoutEncoding → String
  | rowGroupZoneMap => "milvus.v2_zoned_row_group"
  | zoned => "vortex.stats"
  | other id => id

inductive LayoutChildType
  | transparent (name : String)
  | auxiliary (name : String)
  | chunk (rowGroupIdx rowOffset : ℕ)
  | field (name : String)
  deriving DecidableEq, Repr

mutual

inductive Layout
  | mk (encoding : LayoutEncoding) (rowCount : ℕ) (segmentIds : List ℕ) (children : Children)

inductive Children
  | nil
  | cons (type : LayoutChildType) (child : Layout) (rest : Children)

end

namespace Layout

def encoding : Layout → LayoutEncoding
  | mk encoding _ _ _ => encoding

def rowCount : Layout → ℕ
  | mk _ rowCount _ _ => rowCount

def children : Layout → Children
  | mk _ _ _ children => children

end Layout

def Children.length : Children → ℕ
  | nil => 0
  | cons _ _ rest => rest.length + 1

/-! ## Segments -/

mutual

def collectLayoutSegmentIds : Layout → List ℕ
  | .mk _ _ segmentIds children => segmentIds ++ collectChildren children

/-- The segments of the children. -/
def collectChildren : Children → List ℕ
  | .nil => []
  | .cons _ child rest => collectLayoutSegmentIds child ++ collectChildren rest

end

mutual

def collectZoneMapSegmentIds : Layout → Except Fault (List ℕ)
  | .mk encoding _ _ children =>
    let id := encoding.id
    let childCount := children.length
    if encoding = .rowGroupZoneMap ∨ encoding = .zoned then
      match children with
      | .cons _ data (.cons _ zones .nil) => do
        let segmentIds ← collectZoneMapSegmentIds data
        return collectLayoutSegmentIds zones ++ segmentIds
      | _ => .error (.thrown s!"Vortex zonemap layout {id} expected 2 children, got {childCount}")
    else collectZoneMapChildren children

/-- The zone-map segments of the children. -/
def collectZoneMapChildren : Children → Except Fault (List ℕ)
  | .nil => .ok []
  | .cons _ child rest => do
    let segmentIds ← collectZoneMapSegmentIds child
    let rest ← collectZoneMapChildren rest
    return segmentIds ++ rest

end

/-- `sort_unstable` and `dedup`. -/
def sortedSegmentIds (segmentIds : List ℕ) : List ℕ := segmentIds.dedup.insertionSort (· ≤ ·)

def zoneMapSegmentIds (root : Layout) : Except Fault (List ℕ) := do
  let segmentIds ← collectZoneMapSegmentIds root
  return sortedSegmentIds segmentIds

/-! ## Units -/

mutual

def findFieldLayout (fieldName : String) : Layout → Option Layout
  | .mk _ _ _ children => findFieldChild fieldName children

/-- The loop of `find_field_layout`. -/
def findFieldChild (fieldName : String) : Children → Option Layout
  | .nil => none
  | .cons (.field name) child rest =>
    if name = fieldName then some child else findFieldChild fieldName rest
  | .cons (.auxiliary _) _ rest => findFieldChild fieldName rest
  | .cons (.transparent _) child rest | .cons (.chunk _ _) child rest =>
    (findFieldLayout fieldName child).or (findFieldChild fieldName rest)

end

/-- A unit, with the layout whose segments it has. -/
structure LayoutUnit where
  unitId : ℕ
  rowOffset : ℕ
  layout : Layout

namespace LayoutUnit

def rowCount (u : LayoutUnit) : ℕ := u.layout.rowCount

def segIds (u : LayoutUnit) : List ℕ := sortedSegmentIds (collectLayoutSegmentIds u.layout)

/-- `append_layout_unit`. -/
def encode (u : LayoutUnit) : List ℕ :=
  [u.unitId, u.rowOffset, u.rowCount, u.segIds.length] ++ u.segIds

end LayoutUnit

mutual

def collectV2RowGroupUnits (fieldName : String) : Layout → List LayoutUnit
  | .mk _ _ _ children => collectV2RowGroupChildren fieldName children

/-- The loop of `collect_v2_row_group_units`. -/
def collectV2RowGroupChildren (fieldName : String) : Children → List LayoutUnit
  | .nil => []
  | .cons (.chunk rowGroupIdx rowOffset) child rest =>
    let rest := collectV2RowGroupChildren fieldName rest
    if (findFieldLayout fieldName child).isSome then ⟨rowGroupIdx, rowOffset, child⟩ :: rest
    else rest
  | .cons (.auxiliary _) _ rest => collectV2RowGroupChildren fieldName rest
  | .cons (.transparent _) child rest | .cons (.field _) child rest =>
    collectV2RowGroupUnits fieldName child ++ collectV2RowGroupChildren fieldName rest

end

def buildV2RowGroupUnits (root : Layout) (fieldName : String) : Except Fault (List LayoutUnit) :=
  match root.children with
  | .nil => .error (.thrown "Child index out of bounds: 0 of 0")
  | .cons _ data _ =>
    let units := collectV2RowGroupUnits fieldName data
    .ok (if units.isEmpty && (findFieldLayout fieldName data).isSome then [⟨0, 0, data⟩] else units)

def buildV1FlatUnits (root : Layout) (fieldName : String) : List LayoutUnit :=
  match findFieldLayout fieldName root with
  | some field => [⟨0, 0, field⟩]
  | none => []

/-- The granularity and the units that `field_layout_units` encodes. -/
def layoutUnits (root : Layout) (fieldName : String) :
    Except Fault (VortexPhysicalGranularity × List LayoutUnit) := do
  if root.encoding = .rowGroupZoneMap then
    return (.rowGroup, ← buildV2RowGroupUnits root fieldName)
  else return (.flat, buildV1FlatUnits root fieldName)

def VortexPhysicalGranularity.toNat : VortexPhysicalGranularity → ℕ
  | unknown => 0
  | flat => 1
  | rowGroup => 2

def fieldLayoutUnits (root : Layout) (fieldName : String) : Except Fault (List ℕ) := do
  let (granularity, units) ← layoutUnits root fieldName
  return [granularity.toNat, units.length] ++ units.flatMap LayoutUnit.encode

/-! ## Reading the units -/

/-- A Vortex file that has been opened: its layout, and where its segments are. -/
structure VortexFile where
  layout : Layout
  segmentMap : List ByteRange
  /-- The names of the fields of the schema. -/
  fieldNames : List String

namespace VortexFile

def rowCount (vxfile : VortexFile) : ℕ := vxfile.layout.rowCount

def segmentBytes (vxfile : VortexFile) (flatSegmentId : ℕ) : Except Fault ByteRange :=
  let count := vxfile.segmentMap.length
  match vxfile.segmentMap[flatSegmentId]? with
  | none => .error (.thrown (s!"Vortex flat segment id {flatSegmentId} out of range, " ++
      s!"segment count {count}"))
  | some byteRange => .ok byteRange

def readFlatSegmentByteRange (vxfile : VortexFile) (flatSegmentId : ℕ) :
    Except Fault ByteRange := do
  let bytes ← vxfile.segmentBytes flatSegmentId
  if bytes.length = 0 then
    invalid s!"Invalid vortex flat segment byte range for segment {flatSegmentId}"
  else return bytes

def readFlatSegment (vxfile : VortexFile) (flatSegmentId : ℕ) :
    Except Fault VortexFlatSegmentRange := do
  return { flatSegmentId, byteRange := ← vxfile.readFlatSegmentByteRange flatSegmentId }

/-- The loop of `ParseFieldUnits`, from the cursor on. -/
def parseUnits (vxfile : VortexFile) (fieldName : String) : ℕ → List ℕ →
    Except Fault (List VortexUnit)
  | 0, _ => .ok []
  | n + 1, physicalUnitIndex :: rowOffset :: rowCount :: numSegments :: raw =>
    if raw.length < numSegments then
      invalid s!"Truncated vortex segment list for {fieldName}"
    else do
      let flatSegments ← (raw.take numSegments).mapM vxfile.readFlatSegment
      let units ← vxfile.parseUnits fieldName n (raw.drop numSegments)
      return { physicalUnitIndex, rowOffset, rowCount, flatSegments } :: units
  | _ + 1, _ => invalid s!"Truncated vortex field layout units for {fieldName}"

def parseGranularity (fieldName : String) : ℕ → Except Fault VortexPhysicalGranularity
  | 1 => .ok .flat
  | 2 => .ok .rowGroup
  | granularityValue => invalid (s!"Invalid vortex physical unit granularity " ++
      s!"{granularityValue} for {fieldName}")

/-- `ParseFieldUnits` of what the bridge has returned. -/
def parseFieldUnits (vxfile : VortexFile) (fieldName : String) (rawOffsets : List ℕ) :
    Except Fault (VortexPhysicalGranularity × List VortexUnit) :=
  match rawOffsets with
  | granularityValue :: totalUnits :: raw =>
    if fieldName ∉ vxfile.fieldNames then
      .error (.status (.keyError s!"Vortex field not found: {fieldName}"))
    else do
      let granularity ← parseGranularity fieldName granularityValue
      if totalUnits = 0 then
        if vxfile.rowCount = 0 then return (granularity, [])
        else invalid s!"Vortex field {fieldName} has no physical units"
      else
        let units ← vxfile.parseUnits fieldName totalUnits raw
        return (granularity, units)
  | _ => invalid s!"Invalid vortex field layout units for {fieldName}"

def getFieldLayout (vxfile : VortexFile) (fieldName : String) : Except Fault VortexFieldLayout := do
  let rawOffsets ← fieldLayoutUnits vxfile.layout fieldName
  let (granularity, units) ← vxfile.parseFieldUnits fieldName rawOffsets
  match granularity with
  | .flat => return { granularity, flats := units }
  | .rowGroup => return { granularity, rowGroups := units }
  | .unknown => invalid s!"Unsupported vortex field granularity for {fieldName}"

/-- The footer reader of the file. -/
def footerReader (vxfile : VortexFile) (path : String)
    (pruneRowGroups : String → List ℕ → Except Fault (List ℕ)) : VortexFooterReader where
  path
  rows := vxfile.rowCount
  getFieldLayout := vxfile.getFieldLayout
  pruneRowGroups

end VortexFile

/-! ## What is read -/

namespace VortexFile

variable {vxfile : VortexFile} {fieldName : String}

/-- The segment is in the file, at this range. -/
def HasSegment (vxfile : VortexFile) (id : ℕ) (r : ByteRange) : Prop :=
  vxfile.segmentMap[id]? = some r ∧ r.length ≠ 0

theorem readFlatSegment_ok {id : ℕ} {s : VortexFlatSegmentRange}
    (h : vxfile.readFlatSegment id = .ok s) :
    s.flatSegmentId = id ∧ vxfile.HasSegment s.flatSegmentId s.byteRange := by
  obtain ⟨r, hr, h⟩ := bind_eq_ok.mp h
  cases h
  obtain ⟨r', hr', h⟩ := bind_eq_ok.mp hr
  obtain ⟨hlen, h⟩ := ok_of_invalid_ite.mp h
  cases h
  rw [segmentBytes] at hr'
  cases hget : vxfile.segmentMap[id]? with
  | none =>
    rw [hget] at hr'
    cases hr'
  | some r =>
    rw [hget] at hr'
    cases hr'
    exact ⟨rfl, hget, hlen⟩

/-- A unit as the reader has it. -/
def parseUnit (vxfile : VortexFile) (u : LayoutUnit) : Except Fault VortexUnit := do
  let flatSegments ← u.segIds.mapM vxfile.readFlatSegment
  return { physicalUnitIndex := u.unitId, rowOffset := u.rowOffset, rowCount := u.rowCount,
           flatSegments }

theorem parseUnits_encode (vxfile : VortexFile) (fieldName : String) (units : List LayoutUnit) :
    vxfile.parseUnits fieldName units.length (units.flatMap LayoutUnit.encode) =
      units.mapM vxfile.parseUnit := by
  induction units with
  | nil => rfl
  | cons u units ih =>
    rw [length_cons, flatMap_cons, LayoutUnit.encode, mapM_cons]
    simp only [cons_append, nil_append]
    rw [parseUnits, drop_left, ih, parseUnit]
    simp

variable {granularity : VortexPhysicalGranularity} {layout : VortexFieldLayout}

theorem parseGranularity_toNat (h : granularity ≠ .unknown) :
    parseGranularity fieldName granularity.toNat = .ok granularity := by
  cases granularity with
  | unknown => exact absurd rfl h
  | flat => rfl
  | rowGroup => rfl

variable {units : List LayoutUnit}

theorem layoutUnits_granularity {root : Layout}
    (h : layoutUnits root fieldName = .ok (granularity, units)) : granularity ≠ .unknown := by
  unfold layoutUnits at h
  split_ifs at h
  · obtain ⟨_, -, h⟩ := bind_eq_ok.mp h
    cases h
    exact VortexPhysicalGranularity.noConfusion
  · cases h
    exact VortexPhysicalGranularity.noConfusion

/-- The layout with these units. -/
def layoutOf (granularity : VortexPhysicalGranularity) (us : List VortexUnit) :
    VortexFieldLayout :=
  match granularity with
  | .flat => { granularity, flats := us }
  | .rowGroup => { granularity, rowGroups := us }
  | .unknown => { granularity }

theorem units_layoutOf (h : granularity ≠ .unknown) (us : List VortexUnit) :
    (layoutOf granularity us).units = us := by
  cases granularity with
  | unknown => exact absurd rfl h
  | flat => rfl
  | rowGroup => rfl

/-- **The reader gets the units that the bridge has encoded.** -/
theorem getFieldLayout_eq (hunits : layoutUnits vxfile.layout fieldName = .ok (granularity, units))
    (hfield : fieldName ∈ vxfile.fieldNames) : vxfile.getFieldLayout fieldName =
      if units = [] ∧ vxfile.rowCount ≠ 0 then
        invalid s!"Vortex field {fieldName} has no physical units"
      else do
        let us ← units.mapM vxfile.parseUnit
        return layoutOf granularity us := by
  have hgran := layoutUnits_granularity hunits
  have hraw : fieldLayoutUnits vxfile.layout fieldName =
      .ok ([granularity.toNat, units.length] ++ units.flatMap LayoutUnit.encode) := by
    simp [fieldLayoutUnits, hunits]
  rw [getFieldLayout, hraw, ok_bind]
  simp only [cons_append, nil_append, parseFieldUnits]
  rw [if_neg (not_not.mpr hfield), parseGranularity_toNat hgran, ok_bind]
  have hfinish : ∀ us, (match granularity with
      | .flat => pure { granularity, flats := us }
      | .rowGroup => pure { granularity, rowGroups := us }
      | .unknown => invalid s!"Unsupported vortex field granularity for {fieldName}" :
        Except Fault VortexFieldLayout) = pure (layoutOf granularity us) := by
    cases granularity with
    | unknown => exact absurd rfl hgran
    | flat | rowGroup => exact fun _ => rfl
  cases units with
  | nil =>
    by_cases hrows : vxfile.rowCount = 0
    · simp [hrows, hfinish]
    · simp only [hrows, ne_eq]
      rfl
  | cons u units =>
    rw [parseUnits_encode vxfile fieldName (u :: units)]
    simp [hfinish]

section

variable (h : vxfile.getFieldLayout fieldName = .ok layout)

include h

theorem mem_fieldNames_of_getFieldLayout_ok : fieldName ∈ vxfile.fieldNames := by
  by_contra hfield
  obtain ⟨raw, hraw, hparse⟩ := bind_eq_ok.mp h
  obtain ⟨⟨granularity, units⟩, -, hraw⟩ := bind_eq_ok.mp hraw
  cases hraw
  simp only [parseFieldUnits, if_pos hfield] at hparse
  cases hparse

theorem getFieldLayout_ok :
    ∃ granularity units us, layoutUnits vxfile.layout fieldName = .ok (granularity, units) ∧
      granularity ≠ .unknown ∧ units.mapM vxfile.parseUnit = .ok us ∧
        layout = layoutOf granularity us := by
  have hfield := mem_fieldNames_of_getFieldLayout_ok h
  obtain ⟨raw, hraw, -⟩ := bind_eq_ok.mp h
  obtain ⟨⟨granularity, units⟩, hunits, -⟩ := bind_eq_ok.mp hraw
  rw [getFieldLayout_eq hunits hfield] at h
  obtain ⟨-, h⟩ := ok_of_invalid_ite.mp h
  obtain ⟨us, hus, h⟩ := bind_eq_ok.mp h
  cases h
  exact ⟨granularity, units, us, hunits, layoutUnits_granularity hunits, hus, rfl⟩

/-- The segments of a layout are those of the units of the tree, and are in the file. -/
theorem getFieldLayout_hasSegment :
    ∃ granularity units, layoutUnits vxfile.layout fieldName = .ok (granularity, units) ∧
      ∀ u ∈ layout.units, ∀ s ∈ u.flatSegments, (∃ u' ∈ units, s.flatSegmentId ∈ u'.segIds) ∧
          vxfile.HasSegment s.flatSegmentId s.byteRange := by
  obtain ⟨granularity, units, us, hunits, hgran, hus, rfl⟩ := getFieldLayout_ok h
  refine ⟨granularity, units, hunits, fun u hu s hs => ?_⟩
  rw [units_layoutOf hgran] at hu
  obtain ⟨u', hu', hparse⟩ := (forall₂_of_mapM_ok hus).exists_left hu
  obtain ⟨segments, hsegs, hparse⟩ := bind_eq_ok.mp hparse
  cases hparse
  obtain ⟨id, hid, hread⟩ := (forall₂_of_mapM_ok hsegs).exists_left hs
  obtain ⟨rfl, hseg⟩ := readFlatSegment_ok hread
  exact ⟨⟨u', hu', hid⟩, hseg⟩

end

end VortexFile

/-! ## Zone maps -/

mutual

/-- The zone maps that are visited, each with what it has below it. -/
def zoneMaps : Layout → List Layout
  | .mk encoding _ _ children =>
    if encoding = .rowGroupZoneMap ∨ encoding = .zoned then
      match children with
      | .cons _ data (.cons _ zones .nil) => zones :: zoneMaps data
      | _ => []
    else zoneMapsOfChildren children

def zoneMapsOfChildren : Children → List Layout
  | .nil => []
  | .cons _ child rest => zoneMaps child ++ zoneMapsOfChildren rest

end

theorem mem_sortedSegmentIds {ids : List ℕ} {id : ℕ} : id ∈ sortedSegmentIds ids ↔ id ∈ ids := by
  rw [sortedSegmentIds, mem_insertionSort, mem_dedup]

mutual

theorem collectZoneMapSegmentIds_eq : ∀ {l : Layout} {ids : List ℕ},
    collectZoneMapSegmentIds l = .ok ids → ids = (zoneMaps l).flatMap collectLayoutSegmentIds
  | .mk encoding _ _ children, ids, h => by
    unfold collectZoneMapSegmentIds at h
    unfold zoneMaps
    by_cases hzone : encoding = .rowGroupZoneMap ∨ encoding = .zoned
    · simp only [if_pos hzone] at h ⊢
      split at h
      · obtain ⟨segmentIds, hdata, h⟩ := bind_eq_ok.mp h
        cases h
        rw [flatMap_cons, collectZoneMapSegmentIds_eq hdata]
      · cases h
    · rw [if_neg hzone] at h ⊢
      exact collectZoneMapChildren_eq h

theorem collectZoneMapChildren_eq : ∀ {cs : Children} {ids : List ℕ},
    collectZoneMapChildren cs = .ok ids →
      ids = (zoneMapsOfChildren cs).flatMap collectLayoutSegmentIds
  | .nil, ids, h => by
    cases h
    rfl
  | .cons _ child rest, ids, h => by
    rw [collectZoneMapChildren] at h
    obtain ⟨segmentIds, hchild, h⟩ := bind_eq_ok.mp h
    obtain ⟨restIds, hrest, h⟩ := bind_eq_ok.mp h
    cases h
    rw [zoneMapsOfChildren, flatMap_append, collectZoneMapSegmentIds_eq hchild,
      collectZoneMapChildren_eq hrest]

end

variable {root : Layout}

theorem mem_zoneMapSegmentIds {ids : List ℕ} (h : zoneMapSegmentIds root = .ok ids) {id : ℕ} :
    id ∈ ids ↔ ∃ z ∈ zoneMaps root, id ∈ collectLayoutSegmentIds z := by
  obtain ⟨segmentIds, hsegmentIds, h⟩ := bind_eq_ok.mp h
  cases h
  rw [mem_sortedSegmentIds, collectZoneMapSegmentIds_eq hsegmentIds, mem_flatMap]

mutual

/-- `z` is a part of the tree. -/
inductive Within (z : Layout) : Layout → Prop
  | refl : Within z z
  | child {encoding : LayoutEncoding} {rowCount : ℕ} {segmentIds : List ℕ} {children : Children} :
      WithinChildren z children → Within z (.mk encoding rowCount segmentIds children)

/-- `z` is a part of one of the children. -/
inductive WithinChildren (z : Layout) : Children → Prop
  | head {type : LayoutChildType} {child : Layout} {rest : Children} :
      Within z child → WithinChildren z (.cons type child rest)
  | tail {type : LayoutChildType} {child : Layout} {rest : Children} :
      WithinChildren z rest → WithinChildren z (.cons type child rest)

end

mutual

/-- The segments of a part are segments of the whole. -/
theorem Within.subset {z : Layout} : ∀ {l : Layout}, Within z l →
    collectLayoutSegmentIds z ⊆ collectLayoutSegmentIds l
  | _, .refl => fun _ h => h
  | .mk _ _ _ _, .child h => fun _ hs => by
    rw [collectLayoutSegmentIds]
    exact mem_append_right _ (h.subset hs)

theorem WithinChildren.subset {z : Layout} : ∀ {cs : Children}, WithinChildren z cs →
    collectLayoutSegmentIds z ⊆ collectChildren cs
  | .cons _ _ _, .head h => fun _ hs => mem_append_left _ (h.subset hs)
  | .cons _ _ _, .tail h => fun _ hs => mem_append_right _ (h.subset hs)

end

mutual

/-- Two parts of a tree without repeated segments contain each other or share no segment. -/
theorem Within.nested {a b : Layout} : ∀ {l : Layout}, (collectLayoutSegmentIds l).Nodup →
    Within a l → Within b l → Within a b ∨ Within b a ∨
      (collectLayoutSegmentIds a).Disjoint (collectLayoutSegmentIds b)
  | _, _, .refl, hb => .inr (.inl hb)
  | _, _, ha, .refl => .inl ha
  | .mk _ _ _ _, h, .child ha, .child hb => ha.nested h.of_append_right hb

theorem WithinChildren.nested {a b : Layout} : ∀ {cs : Children}, (collectChildren cs).Nodup →
    WithinChildren a cs → WithinChildren b cs → Within a b ∨ Within b a ∨
      (collectLayoutSegmentIds a).Disjoint (collectLayoutSegmentIds b)
  | .cons _ _ _, h, .head ha, .head hb => ha.nested h.of_append_left hb
  | .cons _ _ _, h, .tail ha, .tail hb => ha.nested h.of_append_right hb
  | .cons _ _ _, h, .head ha, .tail hb => .inr <| .inr fun _ hs hs' =>
    disjoint_of_nodup_append h (ha.subset hs) (hb.subset hs')
  | .cons _ _ _, h, .tail ha, .head hb => .inr <| .inr fun _ hs hs' =>
    disjoint_of_nodup_append h (hb.subset hs') (ha.subset hs)

end

mutual

theorem within_of_mem_zoneMaps {z : Layout} : ∀ {l : Layout}, z ∈ zoneMaps l → Within z l
  | .mk _ _ _ children, h => by
    unfold zoneMaps at h
    split_ifs at h
    · split at h
      · obtain rfl | h := mem_cons.mp h
        · exact .child (.tail (.head .refl))
        · exact .child (.head (within_of_mem_zoneMaps h))
      · cases h
    · exact .child (within_of_mem_zoneMapsOfChildren h)

theorem within_of_mem_zoneMapsOfChildren {z : Layout} : ∀ {cs : Children},
    z ∈ zoneMapsOfChildren cs → WithinChildren z cs
  | .cons _ _ _, h => (mem_append.mp h).elim (fun h => .head (within_of_mem_zoneMaps h))
    fun h => .tail (within_of_mem_zoneMapsOfChildren h)

end

/-! ## Units and zone maps -/

mutual

/-- `c` is a row group of the tree, with the field in it. -/
inductive RowGroup (fieldName : String) (c : Layout) : Layout → Prop
  | child {encoding : LayoutEncoding} {rowCount : ℕ} {segmentIds : List ℕ} {children : Children} :
      RowGroupChild fieldName c children →
        RowGroup fieldName c (.mk encoding rowCount segmentIds children)

/-- `c` is a row group at or below one of the children. -/
inductive RowGroupChild (fieldName : String) (c : Layout) : Children → Prop
  | chunk {rowGroupIdx rowOffset : ℕ} {rest : Children} :
      (findFieldLayout fieldName c).isSome →
        RowGroupChild fieldName c (.cons (.chunk rowGroupIdx rowOffset) c rest)
  | transparent {name : String} {child : Layout} {rest : Children} :
      RowGroup fieldName c child → RowGroupChild fieldName c (.cons (.transparent name) child rest)
  | field {name : String} {child : Layout} {rest : Children} :
      RowGroup fieldName c child → RowGroupChild fieldName c (.cons (.field name) child rest)
  | tail {type : LayoutChildType} {child : Layout} {rest : Children} :
      RowGroupChild fieldName c rest → RowGroupChild fieldName c (.cons type child rest)

end

mutual

theorem rowGroup_iff {fieldName : String} {c : Layout} : ∀ {l : Layout},
    RowGroup fieldName c l ↔ ∃ u ∈ collectV2RowGroupUnits fieldName l, u.layout = c
  | .mk _ _ _ children => by
    rw [collectV2RowGroupUnits, ← rowGroupChild_iff]
    exact ⟨fun h => by cases h; assumption, .child⟩

theorem rowGroupChild_iff {fieldName : String} {c : Layout} : ∀ {cs : Children},
    RowGroupChild fieldName c cs ↔ ∃ u ∈ collectV2RowGroupChildren fieldName cs, u.layout = c
  | .nil => by
    rw [collectV2RowGroupChildren]
    exact ⟨(fun h => nomatch h), fun ⟨_, hu, _⟩ => absurd hu not_mem_nil⟩
  | .cons (.auxiliary _) child rest => by
    rw [collectV2RowGroupChildren, ← rowGroupChild_iff]
    exact ⟨fun h => by cases h; assumption, .tail⟩
  | .cons (.transparent _) child rest | .cons (.field _) child rest => by
    simp only [collectV2RowGroupChildren, mem_append, or_and_right, exists_or,
      ← rowGroupChild_iff, ← rowGroup_iff]
    constructor
    · rintro ⟨⟩ <;> simp [*]
    · rintro (h | h)
      · constructor
        exact h
      · exact .tail h
  | .cons (.chunk _ _) child rest => by
    have hrest := @rowGroupChild_iff fieldName c rest
    simp only [collectV2RowGroupChildren]
    by_cases hfield : (findFieldLayout fieldName child).isSome
    · simp only [if_pos hfield, exists_mem_cons_iff, ← hrest]
      constructor
      · rintro (_ | _ | _ | h)
        · exact .inl rfl
        · exact .inr h
      · rintro (rfl | h)
        · exact .chunk hfield
        · exact .tail h
    · rw [if_neg hfield, ← hrest]
      refine ⟨fun h => ?_, .tail⟩
      cases h with
      | chunk h => exact absurd h hfield
      | tail h => exact h

end

mutual

theorem RowGroup.within {fieldName : String} {c : Layout} : ∀ {l : Layout},
    RowGroup fieldName c l → Within c l
  | _, .child h => .child h.within

theorem RowGroupChild.within {fieldName : String} {c : Layout} : ∀ {cs : Children},
    RowGroupChild fieldName c cs → WithinChildren c cs
  | _, .chunk _ => .head .refl
  | _, .transparent h | _, .field h => .head h.within
  | _, .tail h => .tail h.within

end

mutual

theorem within_of_findFieldLayout {fieldName : String} {c : Layout} : ∀ {l : Layout},
    findFieldLayout fieldName l = some c → Within c l
  | .mk _ _ _ _, h => .child (within_of_findFieldChild h)

theorem within_of_findFieldChild {fieldName : String} {c : Layout} : ∀ {cs : Children},
    findFieldChild fieldName cs = some c → WithinChildren c cs
  | .cons (.field _) _ _, h => by
    rw [findFieldChild] at h
    split_ifs at h
    · cases h
      exact .head .refl
    · exact .tail (within_of_findFieldChild h)
  | .cons (.auxiliary _) _ _, h => .tail (within_of_findFieldChild h)
  | .cons (.transparent _) _ _, h | .cons (.chunk _ _) _ _, h =>
    (Option.or_eq_some_iff.mp h).elim (fun h => .head (within_of_findFieldLayout h))
      fun h => .tail (within_of_findFieldChild h.2)

end

/-- The field is read through `l`: a row group with the field, or all data if there is none, or the
layout of the field if the file has no row groups. -/
def UnitLayout (root : Layout) (fieldName : String) (l : Layout) : Prop :=
  if root.encoding = .rowGroupZoneMap then
    match root.children with
    | .nil => False
    | .cons _ data _ => RowGroup fieldName l data ∨
        (∀ c, ¬RowGroup fieldName c data) ∧ (findFieldLayout fieldName data).isSome ∧ l = data
  else findFieldLayout fieldName root = some l

variable {granularity : VortexPhysicalGranularity} {units : List LayoutUnit} {fieldName : String}

theorem UnitLayout.within {l : Layout} (h : UnitLayout root fieldName l) : Within l root := by
  obtain ⟨encoding, rowCount, segmentIds, children⟩ := root
  unfold UnitLayout at h
  split_ifs at h
  · cases children with
    | nil => exact h.elim
    | cons type data rest =>
      obtain h | ⟨-, -, rfl⟩ := h
      · exact .child (.head h.within)
      · exact .child (.head .refl)
  · exact within_of_findFieldLayout h

theorem unitLayout_iff (h : layoutUnits root fieldName = .ok (granularity, units)) {l : Layout} :
    UnitLayout root fieldName l ↔ ∃ u ∈ units, u.layout = l := by
  unfold layoutUnits at h
  unfold UnitLayout
  by_cases hroot : root.encoding = .rowGroupZoneMap
  · rw [if_pos hroot] at h ⊢
    obtain ⟨units', hunits', h⟩ := bind_eq_ok.mp h
    cases h
    unfold buildV2RowGroupUnits at hunits'
    cases hchildren : root.children with
    | nil =>
      rw [hchildren] at hunits'
      cases hunits'
    | cons type data rest =>
      rw [hchildren] at hunits'
      cases hunits'
      simp only [rowGroup_iff]
      cases hgroups : collectV2RowGroupUnits fieldName data with
      | nil =>
        cases hfield : (findFieldLayout fieldName data).isSome with
        | true => simp [eq_comm]
        | false => simp
      | cons u us =>
        have hgroup : ¬∀ c, ¬∃ v ∈ u :: us, v.layout = c :=
          fun hnone => hnone u.layout ⟨u, mem_cons_self, rfl⟩
        simp only [hgroup, false_and, or_false, isEmpty_cons, Bool.false_and, Bool.false_eq_true,
          if_false]
  · rw [if_neg hroot] at h ⊢
    cases h
    unfold buildV1FlatUnits
    cases findFieldLayout fieldName root with
    | none => simp
    | some field => simp

/-- No zone map in a layout through which the field is read has segments, and no zone map elsewhere
shares segments with such a layout. -/
def SparesZoneMaps (root : Layout) (fieldName : String) : Prop :=
  ∀ l, UnitLayout root fieldName l → ∀ z ∈ zoneMaps root,
    (Within z l → collectLayoutSegmentIds z = []) ∧
      (¬Within z l → (collectLayoutSegmentIds z).Disjoint (collectLayoutSegmentIds l))

theorem sparesZoneMaps_iff : SparesZoneMaps root fieldName ↔ ∀ l, UnitLayout root fieldName l →
    ∀ z ∈ zoneMaps root, (collectLayoutSegmentIds z).Disjoint (collectLayoutSegmentIds l) := by
  refine forall₄_congr fun l _ z _ => ⟨fun h => ?_, fun h => ⟨fun hwithin => ?_, fun _ => h⟩⟩
  · by_cases hwithin : Within z l
    · simp [h.1 hwithin]
    · exact h.2 hwithin
  · -- a segment of a zone map in the layout of the unit is a segment of the unit
    exact eq_nil_iff_forall_not_mem.mpr fun id hid => h hid (hwithin.subset hid)

/-- In a tree without repeated segments, only a zone map and a layout of the field that contain each
other can share segments. -/
theorem sparesZoneMaps_iff_of_nodup (hnodup : (collectLayoutSegmentIds root).Nodup) :
    SparesZoneMaps root fieldName ↔ ∀ l, UnitLayout root fieldName l → ∀ z ∈ zoneMaps root,
      (Within z l → collectLayoutSegmentIds z = []) ∧
        (Within l z → collectLayoutSegmentIds l = []) := by
  constructor
  · intro h l hl z hz
    have hdisj := sparesZoneMaps_iff.mp h l hl z hz
    refine ⟨(h l hl z hz).1, fun hwithin => ?_⟩
    exact eq_nil_iff_forall_not_mem.mpr fun id hid => hdisj (hwithin.subset hid) hid
  · intro h l hl z hz
    refine ⟨(h l hl z hz).1, fun hnot => ?_⟩
    obtain hwithin | hwithin | hdisj := (within_of_mem_zoneMaps hz).nested hnodup hl.within
    · exact absurd hwithin hnot
    · simp [(h l hl z hz).2 hwithin]
    · exact hdisj

theorem units_spare_zoneMaps_iff {zoneIds : List ℕ} (hzones : zoneMapSegmentIds root = .ok zoneIds)
    (hunits : layoutUnits root fieldName = .ok (granularity, units)) :
    (∀ u ∈ units, ∀ id ∈ u.segIds, id ∉ zoneIds) ↔ SparesZoneMaps root fieldName := by
  simp only [sparesZoneMaps_iff, unitLayout_iff hunits, LayoutUnit.segIds, mem_sortedSegmentIds,
    mem_zoneMapSegmentIds hzones, not_exists, not_and]
  constructor
  · rintro h l ⟨u, hu, rfl⟩ z hz id hid hid'
    exact h u hu id hid' z hz hid
  · exact fun h u hu id hid z hz hid' => h u.layout ⟨u, hu, rfl⟩ z hz hid' hid

end MilvusStorage.Vortex
