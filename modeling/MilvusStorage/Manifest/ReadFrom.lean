import MilvusStorage.Common.LRUCache
import MilvusStorage.Foundations.Runs
import MilvusStorage.Manifest.Paths

/-!
# Reading manifests through the cache

`Manifest::ReadFrom` keeps the manifests it has read in a cache that all file systems share. The key
is the root of the file system followed by the path. It does not say which store the file system is
on, nor where the root ends and the path starts, and the paths of the manifest are resolved against
the latter.

The files are looked at over time: `history t` is what is stored at time `t`, and a file stays as it
was written.
-/

namespace MilvusStorage

open LexicalPath

/-- `base_path_for_manifest`: without the file name and the metadata directory. -/
def basePathForManifest (path : String) : String :=
  .ofList (parent (parent path.toList))

/-- Some file systems, and the files that their paths name. -/
structure FileSystems (Fs Location : Type) where
  /-- The root, of a `SubTreeFileSystem`. -/
  basePath : Fs → Option String
  typeName : Fs → String
  locate : Fs → String → Location

/-- `MakeCacheKey`. -/
def FileSystems.makeCacheKey {Fs Location : Type} (F : FileSystems Fs Location) (fs : Fs)
    (path : String) : String :=
  match F.basePath fs with
  | some base => base ++ "/" ++ path
  | none => F.typeName fs ++ "://" ++ path

/-- What a file system answers besides the data: which call fails, and how many bytes are read. -/
structure Answers where
  openInputFile : Except Fault Unit := .ok ()
  getSize : Except Fault Unit := .ok ()
  read : ℕ → Except Fault ℕ := .ok
  close : Except Fault Unit := .ok ()

/-- How a manifest is read from the bytes of its file. -/
structure ManifestReader where
  parseUri : UriParser
  /-- `Manifest::deserialize`. The manifest is the only one that points to its column groups. -/
  deserialize : List UInt8 → Except Fault (Manifest × List ColumnGroup)

/-- The manifest in the data of a file, with absolute paths. -/
def ManifestReader.decode (R : ManifestReader) (path : String) (data : List UInt8) :
    Except Fault Manifest := do
  let (m, gs) ← R.deserialize data
  let (_, m) ← (m.withGroups gs).toAbsolutePaths R.parseUri (basePathForManifest path) noGroups
  return m

/-- The data of a file. -/
def readFile (stored : Option (List UInt8)) (answers : Answers) : Except Fault (List UInt8) :=
  match stored with
  | none => .error (.status (.ioError "Path does not exist"))
  | some data => do
    answers.openInputFile
    answers.getSize
    let bytesRead ← answers.read data.length
    if bytesRead ≠ data.length then
      let size := data.length
      .error (.status (.ioError
        s!"Failed to read the complete file, expected size={size}, actual size={bytesRead}"))
    else
      answers.close
      return data

section

variable {Fs Location : Type} (F : FileSystems Fs Location) (R : ManifestReader)

/-- A manifest asked for, at a point in time. -/
structure Request (Fs : Type) where
  time : ℕ
  fs : Fs
  path : String

/-- The manifest that an uncached read gives. -/
def Request.uncached (history : ℕ → Location → Option (List UInt8)) (q : Request Fs)
    (answers : Answers) : Except Fault Manifest := do
  let data ← readFile (history q.time (F.locate q.fs q.path)) answers
  R.decode q.path data

/-- `Manifest::ReadFrom`, with the cache before and after. -/
def Request.readFrom (history : ℕ → Location → Option (List UInt8)) (q : Request Fs)
    (answers : Answers) (cache : LRUCache String Manifest) :
    Except Fault Manifest × LRUCache String Manifest :=
  let key := F.makeCacheKey q.fs q.path
  match cache.get key with
  | (some m, cache) => (.ok m, cache)
  | (none, cache) =>
    match q.uncached F R history answers with
    | .ok m => (.ok m, cache.put key m)
    | .error e => (.error e, cache)

/-! ## Runs of reads -/

/-- The time, and the cache. -/
structure CacheState where
  time : ℕ
  cache : LRUCache String Manifest

def kManifestCacheCapacity : ℕ := 1024

def CacheState.init : CacheState := ⟨0, .ofCapacity kManifestCacheCapacity⟩

/-- Requests are made one after the other. -/
def CacheState.next (history : ℕ → Location → Option (List UInt8)) (s : CacheState)
    (call : Request Fs × Answers) : Option CacheState :=
  if s.time ≤ call.1.time then
    some ⟨call.1.time, (call.1.readFrom F R history call.2 s.cache).2⟩
  else none

/-- The cache is transparent for a set of requests: after any sequence of them, one that succeeds
gives the manifest that an undisturbed uncached read gives. -/
def Transparent (history : ℕ → Location → Option (List UInt8)) (requests : Set (Request Fs)) :
    Prop :=
  ∀ calls s, (∀ call ∈ calls, call.1 ∈ requests) →
    Runs.run (CacheState.next F R history) .init calls = some s →
    ∀ q ∈ requests, s.time ≤ q.time → ∀ answers m,
      (q.readFrom F R history answers s.cache).1 = .ok m → q.uncached F R history {} = .ok m

variable {F R} {history : ℕ → Location → Option (List UInt8)} {q : Request Fs} {answers : Answers}
  {m : Manifest}

/-- A read that succeeds gives all the data. -/
theorem readFile_ok {stored : Option (List UInt8)} {data : List UInt8}
    (h : readFile stored answers = .ok data) : stored = some data := by
  cases stored with
  | none => simp [readFile] at h
  | some stored =>
    simp only [readFile, Except.bind_eq_ok] at h
    obtain ⟨-, -, -, -, bytesRead, -, h⟩ := h
    split_ifs at h
    obtain ⟨-, -, h⟩ := Except.bind_eq_ok.mp h
    rw [Except.pure_eq_ok_iff.mp h]

/-- An undisturbed read of a stored file. -/
@[simp] theorem readFile_some (data : List UInt8) : readFile (some data) {} = .ok data := by
  simp only [readFile, Except.ok_bind, ne_eq]
  rfl

/-- An undisturbed read gives what any read gives that succeeds. -/
theorem uncached_of_ok (h : q.uncached F R history answers = .ok m) :
    q.uncached F R history {} = .ok m := by
  obtain ⟨data, hdata, hm⟩ := Except.bind_eq_ok.mp h
  rwa [Request.uncached, readFile_ok hdata, readFile_some]

/-- Every entry is the manifest of a request made so far. -/
def Filled (F : FileSystems Fs Location) (R : ManifestReader)
    (history : ℕ → Location → Option (List UInt8)) (requests : Set (Request Fs)) (s : CacheState) :
    Prop :=
  ∀ e ∈ s.cache.entries, ∃ q ∈ requests, q.time ≤ s.time ∧ F.makeCacheKey q.fs q.path = e.1 ∧
    q.uncached F R history {} = .ok e.2

variable {cache : LRUCache String Manifest}

/-- What a read leaves in the cache was there, or is what it has just read. -/
theorem mem_readFrom {e : String × Manifest}
    (he : e ∈ (q.readFrom F R history answers cache).2.entries) : e ∈ cache.entries ∨
      e.1 = F.makeCacheKey q.fs q.path ∧ q.uncached F R history answers = .ok e.2 := by
  rw [Request.readFrom] at he
  cases hget : cache.get (F.makeCacheKey q.fs q.path) with
  | mk found cache' =>
    have hcache' : ∀ e ∈ cache'.entries, e ∈ cache.entries := by
      intro e he
      apply LRUCache.mem_get
      rwa [hget]
    cases found with
    | some m => exact .inl (hcache' e (by simpa [hget] using he))
    | none =>
      cases hread : q.uncached F R history answers with
      | error fault => exact .inl (hcache' e (by simpa [hget, hread] using he))
      | ok m =>
        rcases LRUCache.mem_put (by simpa [hget, hread] using he) with rfl | he
        · exact .inr ⟨rfl, rfl⟩
        · exact .inl (hcache' e he)

theorem Filled.next {requests : Set (Request Fs)} {s s' : CacheState} {call : Request Fs × Answers}
    (h : Filled F R history requests s) (hcall : call.1 ∈ requests)
    (hs' : s.next F R history call = some s') : Filled F R history requests s' := by
  rw [CacheState.next] at hs'
  split_ifs at hs' with htime
  cases hs'
  intro e he
  rcases mem_readFrom he with he | ⟨hkey, hread⟩
  · obtain ⟨q, hq, hle, hkey, hread⟩ := h e he
    exact ⟨q, hq, hle.trans htime, hkey, hread⟩
  · exact ⟨call.1, hcall, le_rfl, hkey.symm, uncached_of_ok hread⟩

/-- A read gives an entry with its key, or what is in the file. -/
theorem readFrom_ok (h : (q.readFrom F R history answers cache).1 = .ok m) :
    (F.makeCacheKey q.fs q.path, m) ∈ cache.entries ∨ q.uncached F R history answers = .ok m := by
  rw [Request.readFrom] at h
  cases hget : cache.get (F.makeCacheKey q.fs q.path) with
  | mk found cache' =>
    cases found with
    | some m' =>
      obtain rfl : m' = m := by simpa [hget] using h
      exact .inl (LRUCache.mem_of_get hget)
    | none =>
      cases hread : q.uncached F R history answers with
      | error fault => simp [hget, hread] at h
      | ok m' => exact .inr (by simpa [hget, hread] using h)

/-- A file stays as it was written. -/
def Grows (history : ℕ → Location → Option (List UInt8)) : Prop :=
  ∀ t t' loc data, t ≤ t' → history t loc = some data → history t' loc = some data

theorem uncached_of_le (hgrows : Grows history) {q' : Request Fs} (hle : q.time ≤ q'.time)
    (hfs : q.fs = q'.fs) (hpath : q.path = q'.path) (h : q.uncached F R history {} = .ok m) :
    q'.uncached F R history {} = .ok m := by
  obtain ⟨data, hdata, hm⟩ := Except.bind_eq_ok.mp h
  have hstored := hgrows _ _ _ _ hle (readFile_ok hdata)
  rw [hfs, hpath] at hstored
  rwa [Request.uncached, hstored, ← hpath, readFile_some]

/-- Reading a file for the first time, and then one with the same key. -/
theorem readFrom_readFrom {q' : Request Fs}
    (hkey : F.makeCacheKey q.fs q.path = F.makeCacheKey q'.fs q'.path)
    (hread : q.uncached F R history {} = .ok m) (answers : Answers) :
    (q'.readFrom F R history answers
      (q.readFrom F R history {} CacheState.init.cache).2).1 = .ok m := by
  have hget : CacheState.init.cache.get (F.makeCacheKey q.fs q.path) =
      (none, CacheState.init.cache) := rfl
  have hput : (q.readFrom F R history {} CacheState.init.cache).2 =
      CacheState.init.cache.put (F.makeCacheKey q.fs q.path) m := by
    simp [Request.readFrom, hget, hread]
  have hfound := LRUCache.get_put (c := CacheState.init.cache) (by decide)
    (F.makeCacheKey q.fs q.path) m
  rw [hput, Request.readFrom, ← hkey]
  cases hcached : (CacheState.init.cache.put (F.makeCacheKey q.fs q.path) m).get
      (F.makeCacheKey q.fs q.path) with
  | mk found cache' =>
    rw [hcached] at hfound
    simp only at hfound
    rw [hfound]

/-- **The cache is transparent** if and only if no two requests for different files, or for one file
by different names, have the same key and read different manifests. -/
theorem transparent_iff (F : FileSystems Fs Location) (R : ManifestReader)
    (history : ℕ → Location → Option (List UInt8)) (hgrows : Grows history)
    (requests : Set (Request Fs)) :
    Transparent F R history requests ↔
      ∀ q ∈ requests, ∀ q' ∈ requests, q.time ≤ q'.time → (q.fs, q.path) ≠ (q'.fs, q'.path) →
        F.makeCacheKey q.fs q.path = F.makeCacheKey q'.fs q'.path → ∀ m,
          q.uncached F R history {} = .ok m → q'.uncached F R history {} = .ok m := by
  constructor
  · intro h q hq q' hq' hle _ hkey m hread
    have hrun : Runs.run (CacheState.next F R history) .init [(q, {})] =
        some ⟨q.time, (q.readFrom F R history {} CacheState.init.cache).2⟩ := by
      simp [Runs.run, CacheState.next, CacheState.init]
    exact h _ _ (by simpa using hq) hrun q' hq' hle {} m (readFrom_readFrom hkey hread {})
  · intro h calls s hcalls hrun q' hq' hle answers m hm
    have hfilled : Filled F R history requests s :=
      Runs.run_invariant (fun s call s' hs hcall hs' => hs.next hcall hs')
        (by simp [Filled, CacheState.init, LRUCache.ofCapacity]) hcalls hrun
    rcases readFrom_ok hm with hmem | hread
    · obtain ⟨q, hq, hle', hkey, hread⟩ := hfilled _ hmem
      by_cases hsame : (q.fs, q.path) = (q'.fs, q'.path)
      · obtain ⟨hfs, hpath⟩ := Prod.mk.inj hsame
        exact uncached_of_le hgrows (hle'.trans hle) hfs hpath hread
      · exact h q hq q' hq' (hle'.trans hle) hsame hkey m hread
    · exact uncached_of_ok hread

end

/-! ## Two stores with a bucket of the same name -/

/-- A file with one byte, the version of the manifest. -/
def versionReader : ManifestReader where
  parseUri _ := none
  deserialize data := .ok ({ version := (data.headD 0).toNat }, [])

/-- File systems on the buckets `bucket` of stores. -/
def bucketFileSystems (Store : Type) : FileSystems Store (Store × String) where
  basePath _ := some "bucket"
  typeName _ := "subtree"
  locate store path := (store, path)

/-- The first store has version 1 of the manifest, and every other one has version 2. -/
def twoStores : ℕ → Fin 2 × String → Option (List UInt8) := fun _ loc =>
  some [if loc.1 = 0 then 1 else 2]

/-- The second store is read after the first one, with its manifest. -/
theorem readFrom_otherStore :
    let q : Request (Fin 2) := ⟨0, 0, "_metadata/manifest-1.avro"⟩
    let q' : Request (Fin 2) := ⟨1, 1, "_metadata/manifest-1.avro"⟩
    let F := bucketFileSystems (Fin 2)
    ∃ s m m', Runs.run (CacheState.next F versionReader twoStores) .init [(q, {})] = some s ∧
      (q'.readFrom F versionReader twoStores {} s.cache).1 = .ok m ∧
      q'.uncached F versionReader twoStores {} = .ok m' ∧ m ≠ m' := by
  exact ⟨_, _, _, rfl, rfl, rfl, by decide⟩

/-- If the buckets have different names, the store and the path are read off the key. -/
theorem transparent_twoStores :
    Transparent { bucketFileSystems (Fin 2) with
      basePath := fun store => some (if store = 0 then "a" else "b") } versionReader twoStores
        Set.univ := by
  refine (transparent_iff _ _ _ ?_ _).mpr ?_
  · exact fun _ _ _ _ _ h => h
  · intro q _ q' _ _ hne hkey
    replace hkey := congrArg String.toList hkey
    have hsame : q.fs = q'.fs ∧ q.path = q'.path := by
      by_cases h : q.fs = 0 <;> by_cases h' : q'.fs = 0 <;>
        simp [FileSystems.makeCacheKey, h, h', String.toList_inj] at hkey
      · exact ⟨h.trans h'.symm, hkey⟩
      · exact ⟨by omega, hkey⟩
    exact absurd (Prod.ext hsame.1 hsame.2) hne

end MilvusStorage
