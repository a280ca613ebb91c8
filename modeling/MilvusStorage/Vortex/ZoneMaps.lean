import MilvusStorage.Vortex.Translater

/-!
# Eviction and zone maps

`LoadZoneMaps` fills the segments of all zone maps when a file is opened. A unit has all segments of
the layout of its field or row group, and with them those of the zone maps in that layout. Evicting
its cell then removes what was loaded.
-/

namespace MilvusStorage.Vortex

open SparseFile

variable {β : Type}

/-- The bytes of the zone maps. -/
def VortexFile.ZoneMapBytes (vxfile : VortexFile) (zoneIds : List ℕ) (i : ℕ) : Prop :=
  ∃ id ∈ zoneIds, ∃ r, vxfile.HasSegment id r ∧ r.Covers i

/-- Cells without segments of the zone maps. -/
theorem Stored.not_bytes_of_zoneMapBytes {source : List β} {vxfile : VortexFile}
    (hstored : Stored source vxfile) {zoneIds : List ℕ} {m : VortexCellMeta}
    (hm : m.Located fun id r => vxfile.HasSegment id r ∧ id ∉ zoneIds) {i : ℕ}
    (hi : vxfile.ZoneMapBytes zoneIds i) : ¬m.Bytes i := by
  rintro ⟨r, hr, hcov⟩
  obtain ⟨id, -, hseg, hid⟩ := hm.exists_left hr
  obtain ⟨id', hid', r', hseg', hcov'⟩ := hi
  have hne : id ≠ id' := fun heq => hid (heq ▸ hid')
  exact hstored.apart id id' r r' hseg.1 hseg'.1 hne i hcov hcov'

/-- **The units of a field spare the zone maps** if and only if no zone map with segments is in a
layout of theirs, and no other zone map shares segments with one. Where this is so for every field,
punching out any cell leaves every byte of the zone maps as it is. -/
theorem units_spare_zoneMaps {vxfile : VortexFile} {zoneIds : List ℕ}
    (hzones : zoneMapSegmentIds vxfile.layout = .ok zoneIds) :
    (∀ fieldName granularity units, layoutUnits vxfile.layout fieldName = .ok (granularity, units) →
        ((∀ u ∈ units, ∀ id ∈ u.segIds, id ∉ zoneIds) ↔ SparesZoneMaps vxfile.layout fieldName)) ∧
    ((∀ fieldName ∈ vxfile.fieldNames, SparesZoneMaps vxfile.layout fieldName) →
      ∀ {source : List β}, Stored source vxfile →
      ∀ {sortCells : List VortexCellMeta → List VortexCellMeta}
        {sort : List ByteRange → List ByteRange},
        (∀ l, (sortCells l).Perm l) → SortsByOffset sort →
      ∀ {path prune metas}, Built sortCells (vxfile.footerReader path prune) metas →
      ∀ cell (f : SparseFile β) i, vxfile.ZoneMapBytes zoneIds i →
        punchCell sort metas cell f i = f i) := by
  refine ⟨fun _ _ _ => units_spare_zoneMaps_iff hzones, fun hspares source hstored sortCells sort
    hsortCells hsort path prune metas hbuilt cell f i hi => ?_⟩
  have hloc : ∀ m ∈ metas, m.Located fun id r => vxfile.HasSegment id r ∧ id ∉ zoneIds := by
    refine hbuilt.located hsortCells fun fieldName layout hlayout u hu s hs => ?_
    obtain ⟨granularity, units, hunits, hsegs⟩ := VortexFile.getFieldLayout_hasSegment hlayout
    obtain ⟨⟨u', hu', hid⟩, hseg⟩ := hsegs u hu s hs
    have hspare := hspares fieldName (VortexFile.mem_fieldNames_of_getFieldLayout_ok hlayout)
    exact ⟨hseg, (units_spare_zoneMaps_iff hzones hunits).mpr hspare u' hu' _ hid⟩
  exact punchCell_of_not_bytes hsort fun m hm =>
    hstored.not_bytes_of_zoneMapBytes (hloc m (List.mem_of_getElem? hm)) hi

/-- A column with a zone map of its own. -/
def zonedColumnLayout : Layout :=
  .mk (.other "vortex.struct") 2 [] <|
    .cons (.field "x") (.mk .zoned 2 [] <|
      .cons (.transparent "data") (flatLayout 2 0) <|
      .cons (.auxiliary "zones") (flatLayout 1 1) .nil) .nil

/-- Segment 1 is the zone map, and it is listed in the unit of the column. -/
theorem zonedColumn_lists_zoneMap : zoneMapSegmentIds zonedColumnLayout = .ok [1] ∧
      fieldLayoutUnits zonedColumnLayout "x" = .ok [1, 1, 0, 0, 2, 2, 0, 1] := by
  decide

/-- One row group, whose zone map is beside the data. -/
theorem units_spare_zoneMaps_oneGroup : zoneMapSegmentIds oneGroupFile.layout = .ok [2] ∧
      ∀ (f : SparseFile Char) i, oneGroupFile.ZoneMapBytes [2] i →
        punchCell sortRanges oneGroupCells 0 f i = f i := by
  have hzones : zoneMapSegmentIds oneGroupFile.layout = .ok [2] := by decide
  have hbuilt : Built sortByRowOffset oneGroupFooter oneGroupCells := .inr ⟨["x", "y"], by decide⟩
  have htheorem := units_spare_zoneMaps (β := Char) hzones
  have hx : SparesZoneMaps oneGroupFile.layout "x" :=
    (htheorem.1 "x" .rowGroup _ rfl).mp (by decide)
  have hy : SparesZoneMaps oneGroupFile.layout "y" :=
    (htheorem.1 "y" .rowGroup _ rfl).mp (by decide)
  refine ⟨hzones, htheorem.2 ?_ stored_oneGroupFile (fun l => List.perm_insertionSort _ l)
    sortsByOffset_sortRanges hbuilt 0⟩
  exact List.forall_mem_cons.mpr ⟨hx, List.forall_mem_singleton.mpr hy⟩

end MilvusStorage.Vortex
