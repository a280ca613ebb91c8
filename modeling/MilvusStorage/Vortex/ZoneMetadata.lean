import MilvusStorage.Common.Status
import MilvusStorage.Foundations.Bytes
import MilvusStorage.Foundations.Cursor
import MilvusStorage.Foundations.Except

/-!
# The metadata of zone maps

`RowGroupZoneMapMetadata` is stored as bytes: numbers in little-endian order, and for each column
its name and the bits of its statistics, each after its length. What has been serialized is read
back, and neither a part of it nor anything longer is (`deserialize_serialize`).
-/

namespace MilvusStorage.Vortex

open List Bytes Cursor

structure ColumnZoneMetadata (Stat : Type) where
  fieldName : String
  presentStats : List Stat

structure RowGroupZoneMapMetadata (Stat : Type) where
  version : UInt16
  statsVersion : UInt16
  rgCount : UInt64
  columns : List (ColumnZoneMetadata Stat)

def layoutId : String := "milvus.v2_zoned_row_group"

/-- `as_stat_bitset_bytes` and `stats_from_bitset_bytes`: a bit for each kind of statistics. -/
structure StatBitset (Stat : Type) where
  asBytes : List Stat → List UInt8
  fromBytes : List UInt8 → List Stat
  length_lt : ∀ stats, (asBytes stats).length < 2 ^ 16

variable {Stat : Type} (bitset : StatBitset Stat)

/-- The encoding of the statistics of a column round-trips. -/
def StatBitset.RoundTrips (column : ColumnZoneMetadata Stat) : Prop :=
  bitset.fromBytes (bitset.asBytes column.presentStats) = column.presentStats

/-! ## Writing -/

def utf8 (value : String) : List UInt8 := value.toUTF8.data.toList

/-- `write_string`. `vortex_expect` panics. -/
def writeString (value : String) : Except Fault (List UInt8) :=
  if (utf8 value).length < 2 ^ 16 then .ok (toLE 2 (utf8 value).length ++ utf8 value)
  else .error (.thrown "field name too long")

def writeColumn (column : ColumnZoneMetadata Stat) : Except Fault (List UInt8) := do
  let name ← writeString column.fieldName
  let statBytes := bitset.asBytes column.presentStats
  pure (name ++ (toLE 2 statBytes.length ++ statBytes))

def serialize (m : RowGroupZoneMapMetadata Stat) : Except Fault (List UInt8) := do
  let columns ← m.columns.mapM (writeColumn bitset)
  pure (toLE 2 m.version.toNat ++ (toLE 2 m.statsVersion.toNat ++ (toLE 8 m.rgCount.toNat ++
    (toLE 4 m.columns.length ++ columns.flatten))))

/-! ## Reading -/

def vortexErr {α : Type} (message : String) : Except Fault α := .error (.status (.invalid message))

/-- `&bytes[pos..end]`. -/
def slice (bytes : List UInt8) (pos stop : ℕ) : Except Fault (List UInt8) :=
  if pos ≤ stop ∧ stop ≤ bytes.length then .ok ((bytes.take stop).drop pos)
  else .error .outOfBounds

/-- `read_exact`. A position that overflows is past the end of the bytes, too. -/
def readExact (len : ℕ) (bytes : List UInt8) : StateT ℕ (Except Fault) (List UInt8) := fun pos =>
  let stop := pos + len
  if bytes.length < stop then
    if 2 ^ 64 ≤ stop then vortexErr s!"Invalid {layoutId} metadata length"
    else vortexErr s!"Truncated {layoutId} metadata"
  else do
    let out ← slice bytes pos stop
    pure (out, stop)

/-- `read_u16`, `read_u32` and `read_u64`. -/
def readUInt (width : ℕ) (bytes : List UInt8) : StateT ℕ (Except Fault) ℕ := do
  let out ← readExact width bytes
  pure (ofLE out)

def readBytes (bytes : List UInt8) : StateT ℕ (Except Fault) (List UInt8) := do
  let len ← readUInt 2 bytes
  readExact len bytes

def readString (bytes : List UInt8) : StateT ℕ (Except Fault) String := do
  let out ← readBytes bytes
  match String.fromUTF8? ⟨⟨out⟩⟩ with
  | some value => pure value
  | none => fun _ => vortexErr s!"Invalid UTF-8 in {layoutId} metadata"

def readColumn (bytes : List UInt8) : StateT ℕ (Except Fault) (ColumnZoneMetadata Stat) := do
  let fieldName ← readString bytes
  let statBytes ← readBytes bytes
  pure { fieldName, presentStats := bitset.fromBytes statBytes }

/-- The loop over the columns. -/
def readColumns : ℕ → List UInt8 → StateT ℕ (Except Fault) (List (ColumnZoneMetadata Stat))
  | 0, _ => pure []
  | n + 1, bytes => do
    let column ← readColumn bitset bytes
    let columns ← readColumns n bytes
    pure (column :: columns)

def readMetadata (bytes : List UInt8) : StateT ℕ (Except Fault) (RowGroupZoneMapMetadata Stat) := do
  let version ← readUInt 2 bytes
  let statsVersion ← readUInt 2 bytes
  let rgCount ← readUInt 8 bytes
  let columnCount ← readUInt 4 bytes
  let columns ← readColumns bitset columnCount bytes
  pure { version := .ofNat version, statsVersion := .ofNat statsVersion,
         rgCount := .ofNat rgCount, columns }

def deserialize (bytes : List UInt8) : Except Fault (RowGroupZoneMapMetadata Stat) := do
  let (m, pos) ← readMetadata bitset bytes 0
  let remaining := bytes.length - pos
  if pos = bytes.length then pure m
  else vortexErr s!"Trailing bytes in {layoutId} metadata: {remaining}"

/-! ## Reading what was written -/

/-- The errors that are returned. -/
def Returned (e : Fault) : Prop := ∃ s, e = .status s

variable {bitset} {bytes : List UInt8} {n : ℕ} {column : ColumnZoneMetadata Stat}
  {columns : List (ColumnZoneMetadata Stat)}

theorem reads_exact (code : List UInt8) : Reads Returned (readExact code.length) code code where
  ok before after := by
    have hlen : ¬(before ++ code ++ after).length < before.length + code.length := by simp
    rw [readExact, if_neg hlen, slice, if_pos (by simp)]
    simp [take_append]
  error before part rest hcode hrest := by
    have hpos := length_pos_of_ne_nil hrest
    have hlen : (before ++ part).length < before.length + code.length := by
      simp only [hcode, length_append]
      omega
    rw [readExact, if_pos hlen]
    split_ifs <;> exact ⟨_, rfl, _, rfl⟩

theorem reads_uint {width : ℕ} (h : n < 256 ^ width) :
    Reads Returned (readUInt width) (toLE width n) n := by
  have hread := reads_exact (toLE width n)
  rw [length_toLE] at hread
  have hpure : Reads Returned (fun _ => pure (ofLE (toLE width n))) ([] : List UInt8) n := by
    rw [ofLE_toLE, Nat.mod_eq_of_lt h]
    exact reads_pure n
  rw [← append_nil (toLE width n)]
  exact hread.bind hpure

theorem reads_bytes (h : bytes.length < 2 ^ 16) :
    Reads Returned readBytes (toLE 2 bytes.length ++ bytes) bytes :=
  (reads_uint h).bind (reads_exact bytes)

theorem reads_string {value : String} (h : (utf8 value).length < 2 ^ 16) :
    Reads Returned readString (toLE 2 (utf8 value).length ++ utf8 value) value := by
  have hvalue : String.fromUTF8? ⟨⟨utf8 value⟩⟩ = some value := by
    simp only [utf8, String.fromUTF8?, String.toUTF8_eq_toByteArray, dif_pos value.isValidUTF8]
    rfl
  rw [← append_nil (toLE 2 _ ++ _)]
  refine (reads_bytes h).bind ?_
  rw [hvalue]
  exact reads_pure value

theorem reads_column (hstats : bitset.RoundTrips column)
    (hwrite : writeColumn bitset column = .ok bytes) :
    Reads Returned (readColumn bitset) bytes column := by
  rw [writeColumn, writeString] at hwrite
  split_ifs at hwrite with hname
  · cases hwrite
    rw [← append_nil (toLE 2 (bitset.asBytes _).length ++ _)]
    refine (reads_string hname).bind ((reads_bytes (bitset.length_lt _)).bind ?_)
    rw [hstats]
    exact reads_pure column
  · cases hwrite

theorem reads_columns {codes : List (List UInt8)} (hstats : ∀ c ∈ columns, bitset.RoundTrips c)
    (hwrite : columns.mapM (writeColumn bitset) = .ok codes) :
    Reads Returned (readColumns bitset columns.length) codes.flatten columns := by
  induction Except.forall₂_of_mapM_ok hwrite with
  | nil => exact reads_pure []
  | @cons column _ columns codes hcol hrest ih =>
    obtain ⟨hstat, hstats⟩ := forall_mem_cons.mp hstats
    rw [flatten_cons, ← append_nil codes.flatten]
    have htail := ih hstats (Except.mapM_ok_of_forall₂ hrest)
    exact (reads_column hstat hcol).bind (htail.bind (reads_pure (column :: columns)))

theorem reads_metadata {m : RowGroupZoneMapMetadata Stat} (hcols : m.columns.length < 2 ^ 32)
    (hstats : ∀ c ∈ m.columns, bitset.RoundTrips c) (hwrite : serialize bitset m = .ok bytes) :
    Reads Returned (readMetadata bitset) bytes m := by
  obtain ⟨codes, hcodes, hwrite⟩ := Except.bind_eq_ok.mp hwrite
  cases hwrite
  have hpure : Reads Returned (fun _ : List UInt8 => pure
      (⟨.ofNat m.version.toNat, .ofNat m.statsVersion.toNat, .ofNat m.rgCount.toNat, m.columns⟩ :
        RowGroupZoneMapMetadata Stat)) [] m := by
    simpa using reads_pure m
  rw [← append_nil codes.flatten]
  exact (reads_uint m.version.toNat_lt).bind ((reads_uint m.statsVersion.toNat_lt).bind
    ((reads_uint m.rgCount.toNat_lt).bind ((reads_uint hcols).bind
      ((reads_columns hstats hcodes).bind hpure))))

/-- **Zone map metadata** with fewer than `2 ^ 32` columns and names shorter than 64 KiB is written.
The bytes are read back. Reading a part of them, or more than them, returns an error. -/
theorem deserialize_serialize {m : RowGroupZoneMapMetadata Stat} (hcols : m.columns.length < 2 ^ 32)
    (hnames : ∀ c ∈ m.columns, (utf8 c.fieldName).length < 2 ^ 16)
    (hstats : ∀ c ∈ m.columns, bitset.RoundTrips c) :
    ∃ bytes, serialize bitset m = .ok bytes ∧ deserialize bitset bytes = .ok m ∧
      (∀ part rest, bytes = part ++ rest → rest ≠ [] →
        ∃ s, deserialize bitset part = .error (.status s)) ∧
      ∀ extra, extra ≠ [] → ∃ s, deserialize bitset (bytes ++ extra) = .error (.status s) := by
  obtain ⟨codes, hcodes⟩ := Except.exists_mapM_ok (f := writeColumn bitset) (l := m.columns)
    fun c hc => ⟨_, by rw [writeColumn, writeString, if_pos (hnames c hc)]; rfl⟩
  obtain ⟨bytes, hwrite⟩ : ∃ bytes, serialize bitset m = .ok bytes :=
    ⟨_, by rw [serialize, hcodes]; rfl⟩
  have hread := reads_metadata hcols hstats hwrite
  refine ⟨bytes, hwrite, ?_, fun part rest hpart hrest => ?_, fun extra hextra => ?_⟩
  · have hok := hread.ok [] []
    simp only [nil_append, append_nil, length_nil] at hok
    rw [deserialize, hok]
    exact if_pos rfl
  · obtain ⟨e, he, s, rfl⟩ := hread.error [] part rest hpart hrest
    simp only [nil_append, length_nil] at he
    exact ⟨s, by rw [deserialize, he]; rfl⟩
  · have hok := hread.ok [] extra
    simp only [nil_append, length_nil] at hok
    rw [deserialize, hok]
    exact ⟨_, if_neg (by simpa using hextra)⟩

/-- Two kinds of statistics, one of them present in a column whose name is not ASCII. -/
def sizeAndId : RowGroupZoneMapMetadata Bool := ⟨1, 1, 3, [⟨"größe", [true]⟩, ⟨"id", []⟩]⟩

/-- A byte for each statistics. -/
def byteset : StatBitset Bool where
  asBytes stats := [if true ∈ stats then 1 else 0]
  fromBytes bytes := if bytes = [1] then [true] else []
  length_lt _ := Nat.one_lt_two_pow (by decide)

theorem deserialize_serialize_sizeAndId : ∃ bytes, serialize byteset sizeAndId = .ok bytes ∧
    deserialize byteset bytes = .ok sizeAndId ∧
    (∀ part rest, bytes = part ++ rest → rest ≠ [] →
      ∃ s, deserialize byteset part = .error (.status s)) ∧
    ∀ extra, extra ≠ [] → ∃ s, deserialize byteset (bytes ++ extra) = .error (.status s) :=
  deserialize_serialize (by decide) (by decide)
    (forall_mem_cons.mpr ⟨rfl, forall_mem_singleton.mpr rfl⟩)

end MilvusStorage.Vortex
