import MilvusStorage.Transaction.Streams

/-!
# What the streams leave in the directory

The invariant of transactions that write to streams: the latest version is complete, unless a plain
stream is writing it. Plain streams are undisturbed from the check that finds the path free to their
end, so there is at most one of them for a file, and nobody reads what it has not finished.
-/

namespace MilvusStorage.Table

/-! ## The invariant -/

section Inv

variable {β : Type} (codec : Codec (List β)) (S : Table β)

/-- The manifest of the version is stored and was reported. -/
def Complete (v : ℕ) : Prop :=
  ∃ b m, S.sys.stored v = some b ∧ codec.decode b = .ok m ∧ (v, m) ∈ S.reported

/-- A call goes on with a plain stream for the file of the version. -/
def Owns (i v : ℕ) : Prop := (S.streams i).phase.Plain ∧ S.target i = some v

/-- A plain stream has created the file of the version and is not closed yet. -/
def Writing (i v : ℕ) : Prop := (S.streams i).phase.Created ∧ S.target i = some v

/-- A call of `WriteTo` is made by a `Commit` and has bytes from which its manifest is read. -/
structure Linked (i : ℕ) : Prop where
  data : (S.streams i).phase ≠ .idle → ∃ t start r v m,
    (S.sys.clients i).phase = .committing t start (.write r v m) ∧
      codec.decode (S.streams i).data = .ok (m.copy (S.sys.clients i).groups)
  bounded : ∀ v, S.target i = some v → 0 < v ∧ v < 2 ^ 63

structure Inv : Prop where
  linked : ∀ i, S.Linked codec i
  alone : ∀ i j v, S.Owns i v → S.Owns j v → i = j
  free : ∀ i v, (S.streams i).phase = .absent → S.target i = some v → S.sys.stored v = none
  latest : S.sys.latest = 0 ∨ S.Complete codec S.sys.latest ∨ ∃ i, S.Writing i S.sys.latest
  cache : ∀ p name m, S.sys.cache p name = some m →
    ∃ b, S.sys.files.lookup name = some b ∧ codec.decode b = .ok m
  uncached : ∀ i v p, S.Writing i v → S.sys.cache p (getManifestFilename v) = none

/-- The table differs only in one transaction and its stream, and in the files. -/
structure Acts (i : ℕ) (S S' : Table β) : Prop where
  clients : ∀ j, j ≠ i → S'.sys.clients j = S.sys.clients j
  streams : ∀ j, j ≠ i → S'.streams j = S.streams j
  cache : S'.sys.cache = S.sys.cache
  reported : ∀ x ∈ S.reported, x ∈ S'.reported

end Inv

section Steps

variable {β : Type} {codec : Codec (List β)} {S S' : Table β} {i j v : ℕ}

/-! ## Files -/

theorem stored_setFile_self (S : Table β) (v : ℕ) (b : List β) :
    (S.setFile v b).sys.stored v = some b :=
  List.lookup_cons_self ..

theorem lookup_setFile_of_ne (S : Table β) {name : String} (h : name ≠ getManifestFilename v)
    (b : List β) : (S.setFile v b).sys.files.lookup name = S.sys.files.lookup name := by
  have hne : (name == getManifestFilename v) = false := beq_false_of_ne h
  simp [setFile, List.lookup_cons, hne]

theorem stored_setFile_of_ne (S : Table β) {w : ℕ} (h : w ≠ v) (b : List β) :
    (S.setFile v b).sys.stored w = S.sys.stored w :=
  S.lookup_setFile_of_ne (fun heq => h (getManifestFilename_injective heq)) b

theorem latest_setFile (S : Table β) (h : v < 2 ^ 63) (b : List β) :
    (S.setFile v b).sys.latest = max v S.sys.latest := by
  change latestVersion (getManifestFilename v :: S.sys.files.map Prod.fst) = _
  rw [latestVersion_cons, manifestVersion_getManifestFilename h]
  rfl

/-! ## Steps of one stream -/

theorem Acts.linked (hacts : Acts i S S') (h : ∀ j, S.Linked codec j) (hi : S'.Linked codec i)
    (j : ℕ) : S'.Linked codec j := by
  by_cases hji : j = i
  · exact hji ▸ hi
  · obtain ⟨hdata, hbounded⟩ := h j
    refine ⟨?_, ?_⟩
    · rwa [hacts.streams j hji, hacts.clients j hji]
    · rwa [target, hacts.clients j hji]

theorem Acts.target_eq (hacts : Acts i S S') (hji : j ≠ i) : S'.target j = S.target j := by
  rw [target, target, hacts.clients j hji]

theorem Acts.owns_iff (hacts : Acts i S S') (hji : j ≠ i) : S'.Owns j v ↔ S.Owns j v := by
  rw [Owns, Owns, hacts.streams j hji, hacts.target_eq hji]

theorem Acts.writing_iff (hacts : Acts i S S') (hji : j ≠ i) : S'.Writing j v ↔ S.Writing j v := by
  rw [Writing, Writing, hacts.streams j hji, hacts.target_eq hji]

theorem Acts.alone (hacts : Acts i S S') (h : S.Inv codec)
    (hi : ∀ v, S'.Owns i v → ∀ j, j ≠ i → ¬ S.Owns j v) (j k v : ℕ) (hj : S'.Owns j v)
    (hk : S'.Owns k v) : j = k := by
  by_cases hji : j = i
  · by_contra hne
    have hki : k ≠ i := fun hki => hne (hji.trans hki.symm)
    exact hi v (hji ▸ hj) k hki ((hacts.owns_iff hki).mp hk)
  · have hj' := (hacts.owns_iff hji).mp hj
    by_cases hki : k = i
    · exact absurd hj' (hi v (hki ▸ hk) j hji)
    · exact h.alone j k v hj' ((hacts.owns_iff hki).mp hk)

/-- A step of one transaction that changes no file. -/
theorem Inv.of_sameFiles (h : S.Inv codec) (hacts : Acts i S S') (hi : S'.Linked codec i)
    (hfiles : S'.sys.files = S.sys.files) (hbefore : ¬ (S.streams i).phase.Created)
    (hcreated : ¬ (S'.streams i).phase.Created)
    (hfree : ∀ v, S'.Owns i v → S.sys.stored v = none ∧ ∀ j, j ≠ i → ¬ S.Owns j v) :
    S'.Inv codec := by
  have hstored : S'.sys.stored = S.sys.stored := by
    funext w
    rw [System.stored, System.stored, hfiles]
  refine ⟨hacts.linked h.linked hi, hacts.alone h fun v hv => (hfree v hv).2, fun j v hj hv => ?_,
    ?_, ?_, fun j v p hj => ?_⟩
  · rw [hstored]
    by_cases hji : j = i
    · subst hji
      exact (hfree v ⟨by rw [hj]; trivial, hv⟩).1
    · exact h.free j v (hacts.streams j hji ▸ hj) (hacts.target_eq hji ▸ hv)
  · rw [System.latest, hfiles]
    rcases h.latest with hzero | ⟨b, m, hb, hdec, hm⟩ | ⟨j, hj⟩
    · exact .inl hzero
    · exact .inr (.inl ⟨b, m, hstored ▸ hb, hdec, hacts.reported _ hm⟩)
    · have hji : j ≠ i := fun hji => hbefore (hji ▸ hj.1)
      exact .inr (.inr ⟨j, (hacts.writing_iff hji).mpr hj⟩)
  · rw [hacts.cache, hfiles]
    exact h.cache
  · have hji : j ≠ i := fun hji => hcreated (hji ▸ hj.1)
    rw [hacts.cache]
    exact h.uncached j v p ((hacts.writing_iff hji).mp hj)

variable {b : List β}

/-- A step that writes the file of a version which is absent, or which the stream has created. -/
theorem Inv.of_setFile (h : S.Inv codec) (hacts : Acts i S S')
    (hnone : ∀ j, j ≠ i → ¬ S.Owns j v) (hi : S'.Linked codec i)
    (hfiles : S'.sys.files = (S.setFile v b).sys.files) (htarget : S.target i = some v)
    (hbefore : S.sys.stored v = none ∨ S.Writing i v)
    (hafter : S'.Complete codec v ∨ S'.Writing i v) (habsent : (S'.streams i).phase ≠ .absent)
    (htarget' : ∀ w, S'.target i = some w → w = v) : S'.Inv codec := by
  have huncached : ∀ p, S.sys.cache p (getManifestFilename v) = none := by
    intro p
    rcases hbefore with hnone | hwriting
    · by_contra hsome
      obtain ⟨m, hm⟩ := Option.ne_none_iff_exists'.mp hsome
      obtain ⟨b, hb, -⟩ := h.cache p _ m hm
      rw [System.stored, hb] at hnone
      cases hnone
    · exact h.uncached i v p hwriting
  have hlatest : S'.sys.latest = max v S.sys.latest := by
    rw [← S.latest_setFile ((h.linked i).bounded v htarget).2 b, System.latest, System.latest,
      hfiles]
  have hstored : ∀ w, w ≠ v → S'.sys.stored w = S.sys.stored w := by
    intro w hw
    rw [System.stored, hfiles]
    exact S.stored_setFile_of_ne hw b
  refine ⟨hacts.linked h.linked hi, hacts.alone h fun w hw => htarget' w hw.2 ▸ hnone,
    fun j w hj hw => ?_, ?_, fun p name m hm => ?_, fun j w p hj => ?_⟩
  · have hji : j ≠ i := fun hji => habsent (hji ▸ hj)
    rw [hacts.streams j hji] at hj
    rw [hacts.target_eq hji] at hw
    have hne : w ≠ v := by
      rintro rfl
      exact hnone j hji ⟨by rw [hj]; trivial, hw⟩
    rw [hstored w hne, h.free j w hj hw]
  · by_cases hle : S.sys.latest ≤ v
    · rw [hlatest, max_eq_left hle]
      exact .inr (hafter.imp id fun hw => ⟨i, hw⟩)
    · -- the latest version is another file
      have hne : S.sys.latest ≠ v := by omega
      rw [hlatest, max_eq_right (by omega)]
      rcases h.latest with hzero | ⟨b', m, hb, hdec, hm⟩ | ⟨j, hj⟩
      · exact .inl hzero
      · exact .inr (.inl ⟨b', m, (hstored _ hne).trans hb, hdec, hacts.reported _ hm⟩)
      · have hji : j ≠ i := by
          rintro rfl
          exact hne (Option.some.inj (hj.2.symm.trans htarget))
        exact .inr (.inr ⟨j, (hacts.writing_iff hji).mpr hj⟩)
  · rw [hacts.cache] at hm
    have hname : name ≠ getManifestFilename v := by
      rintro rfl
      rw [huncached p] at hm
      cases hm
    rw [hfiles, S.lookup_setFile_of_ne hname]
    exact h.cache p name m hm
  · rw [hacts.cache]
    by_cases hji : j = i
    · subst hji
      rw [htarget' w hj.2]
      exact huncached p
    · exact h.uncached j w p ((hacts.writing_iff hji).mp hj)

theorem target_eq_some : S.target i = some v ↔ ∃ t start r u m,
    (S.sys.clients i).phase = .committing t start (.write r u m) ∧ u + 1 = v := by
  rw [target]
  constructor
  · intro h
    unfold Phase.target at h
    split at h
    · next t start r u m hp => exact ⟨t, start, r, u, m, hp, Option.some.inj h⟩
    · cases h
  · rintro ⟨t, start, r, u, m, hp, rfl⟩
    rw [hp]
    rfl

theorem acts_advance (S : Table β) (i : ℕ) (p : WritePhase) : Acts i S (S.advance i p) := by
  unfold advance
  split
  · next result =>
    split
    · refine ⟨fun j hj => Function.update_of_ne hj .., fun j hj => Function.update_of_ne hj .., rfl,
        ?_⟩
      intro x hx
      cases result with
      | ok u => exact List.mem_cons_of_mem _ hx
      | error s => exact hx
    · exact ⟨fun _ _ => rfl, fun _ _ => rfl, rfl, fun _ => id⟩
  · exact ⟨fun _ _ => rfl, fun j hj => Function.update_of_ne hj .., rfl, fun _ => id⟩

theorem files_advance (S : Table β) (i : ℕ) (p : WritePhase) :
    (S.advance i p).sys.files = S.sys.files := by
  unfold advance
  split
  · split <;> rfl
  · rfl

theorem Acts.of_setFile (h : Acts i (S.setFile v b) S') : Acts i S S' :=
  ⟨h.clients, h.streams, h.cache, h.reported⟩

section Advance

variable {t : Transaction} {start : Store} {r u : ℕ} {m : Manifest}
  (hp : (S.sys.clients i).phase = .committing t start (.write r u m))
include hp

theorem target_eq : S.target i = some (u + 1) := target_eq_some.mpr ⟨t, start, r, u, m, hp, rfl⟩

theorem advance_returned (result : Except Status Unit) : S.advance i (.returned result) =
      { sys := S.sys.setPhase i (.committing t start (t.written r u result))
        streams := Function.update S.streams i { data := [], phase := .idle }
        reported := S.report (u + 1, m.copy (S.sys.clients i).groups) result } := by
  simp [advance, hp]

theorem phase_advance (p : WritePhase) : ((S.advance i p).streams i).phase = p.settled := by
  cases p with
  | returned result => simp [advance_returned hp, WritePhase.settled]
  | _ => simp [advance, WritePhase.settled]

theorem target_advance (p : WritePhase) {w : ℕ} (h : (S.advance i p).target i = some w) :
    w = u + 1 := by
  cases p with
  | returned result =>
    rw [advance_returned hp, target, System.setPhase_phase_self, System.target_written] at h
    cases h
  | _ => exact Option.some.inj (h.symm.trans (target_eq (S := S) hp))

theorem linked_advance (hu : u + 1 < 2 ^ 63) (p : WritePhase) (hdata : p.settled ≠ .idle →
      codec.decode (S.streams i).data = .ok (m.copy (S.sys.clients i).groups)) :
    (S.advance i p).Linked codec i := by
  refine ⟨?_, fun w hw => ?_⟩
  · rw [phase_advance hp]
    intro hne
    cases p with
    | returned result => exact absurd rfl hne
    | _ =>
      refine ⟨t, start, r, u, m, hp, ?_⟩
      simp only [advance, Function.update_self]
      exact hdata hne
  · rw [target_advance hp p hw]
    exact ⟨Nat.succ_pos u, hu⟩

/-- What a call that returns `OK` leaves. -/
theorem complete_advance
    (hdata : codec.decode (S.streams i).data = .ok (m.copy (S.sys.clients i).groups)) :
    ((S.setFile (u + 1) (S.streams i).data).advance i (.returned (.ok ()))).Complete codec
      (u + 1) := by
  refine ⟨(S.streams i).data, m.copy (S.sys.clients i).groups, ?_, hdata, ?_⟩
  · rw [System.stored, files_advance]
    exact S.stored_setFile_self ..
  · rw [advance_returned (S := S.setFile (u + 1) _) hp]
    exact List.mem_cons_self

end Advance

/-! ## Every step keeps the invariant -/

variable {process : ℕ → ℕ} {fs : ConditionalStreams} {failure : Option Status} {k : ℕ}

theorem next_step {a : Action} (h : S.next codec fs process (.step a) = some S') :
    (∀ i w, a ≠ .write i w) ∧
      ∃ sys, S.sys.next codec process a = some sys ∧ S' = { S with sys } := by
  have hwrite : ∀ i w, a ≠ .write i w := by
    rintro i w rfl
    cases h
  have hmap : (S.sys.next codec process a).map (fun sys => { S with sys }) = some S' := by
    cases a with
    | write i w => exact absurd rfl (hwrite i w)
    | _ => exact h
  obtain ⟨sys, hsys, hS'⟩ := Option.map_eq_some_iff.mp hmap
  exact ⟨hwrite, sys, hsys, hS'.symm⟩

/-- A step of a transaction. -/
theorem Inv.step (h : S.Inv codec) {a : Action} (ha : S.Undisturbed (.step a))
    (hwrite : ∀ i w, a ≠ .write i w) {sys : System (List β)}
    (hnext : S.sys.next codec process a = some sys) : Inv codec { S with sys } := by
  have hleaves := System.leavesFiles_next hwrite hnext
  have hclient : ∀ j, (S.streams j).phase ≠ .idle → sys.clients j = S.sys.clients j := by
    intro j hj
    obtain ⟨t, start, r, v, m, hp, -⟩ := (h.linked j).data hj
    exact hleaves.clients j (by rw [hp]; exact Option.some_ne_none _)
  have htarget : ∀ j, (S.streams j).phase ≠ .idle → target { S with sys } j = S.target j :=
    fun j hj => by rw [target, target, hclient j hj]
  have howns : ∀ j v, Owns { S with sys } j v → S.Owns j v := fun j v hj =>
    ⟨hj.1, htarget j (by rintro hp; rw [Owns, hp] at hj; exact hj.1) ▸ hj.2⟩
  have hwriting : ∀ j v, Writing { S with sys } j v ↔ S.Writing j v := fun j v =>
    and_congr_right fun hj => by rw [htarget j (by rintro hp; rw [hp] at hj; exact hj)]
  have hstored : sys.stored = S.sys.stored := by
    funext w
    rw [System.stored, System.stored, hleaves.files]
  refine ⟨fun j => ⟨fun hj => ?_, fun v hv => (hleaves.target j v hv).elim ((h.linked j).bounded v)
    id⟩, fun i j v hi hj => h.alone i j v (howns i v hi) (howns j v hj), fun j v hj hv => ?_, ?_,
    fun p name m hm => ?_, fun j v p hj => ?_⟩
  · obtain ⟨t, start, r, v, m, hp, hdec⟩ := (h.linked j).data hj
    exact ⟨t, start, r, v, m, by rw [hclient j hj, hp], by rw [hclient j hj, hdec]⟩
  · rw [hstored]
    exact h.free j v hj (htarget j (hj.trans_ne WritePhase.noConfusion) ▸ hv)
  · simp only [System.latest, Complete, hleaves.files, hwriting, hstored]
    exact h.latest
  · rw [hleaves.files]
    rcases hleaves.cache p name m hm with hm | ⟨v, b, -, rfl, hb, hdec⟩
    · exact h.cache p name m hm
    · exact ⟨b, hb, hdec⟩
  · rw [hwriting] at hj
    by_contra hsome
    obtain ⟨m, hm⟩ := Option.ne_none_iff_exists'.mp hsome
    rcases hleaves.cache p _ m hm with hm | ⟨w, b, hread, hname, -⟩
    · rw [h.uncached j v p hj] at hm
      cases hm
    · obtain rfl := getManifestFilename_injective hname
      exact ha j hj.1.plain (hread.trans hj.2.symm)

section Stream

variable {t : Transaction} {start : Store} {r u : ℕ} {m : Manifest} {p : WritePhase}
  (h : S.Inv codec) (hp : (S.sys.clients i).phase = .committing t start (.write r u m))
include h hp

/-- A call to the filesystem that changes no file. -/
theorem Inv.advance (hdata : p.settled ≠ .idle →
      codec.decode (S.streams i).data = .ok (m.copy (S.sys.clients i).groups))
    (hbefore : ¬ (S.streams i).phase.Created) (hcreated : ¬ p.settled.Created)
    (hfree : p.settled.Plain → S.sys.stored (u + 1) = none ∧ ∀ j, j ≠ i → ¬ S.Owns j (u + 1)) :
    (S.advance i p).Inv codec := by
  have hu := ((h.linked i).bounded _ (target_eq hp)).2
  refine h.of_sameFiles (acts_advance S i p) (linked_advance hp hu p hdata) (files_advance S i p)
    hbefore ?_ ?_
  · rwa [phase_advance hp]
  · rintro v ⟨hplain, hv⟩
    rw [phase_advance hp] at hplain
    rw [target_advance hp p hv]
    exact hfree hplain

/-- A call to the filesystem that writes the file. -/
theorem Inv.advance_setFile (hnone : ∀ j, j ≠ i → ¬ S.Owns j (u + 1))
    (hdata : codec.decode (S.streams i).data = .ok (m.copy (S.sys.clients i).groups))
    (hbefore : S.sys.stored (u + 1) = none ∨ S.Writing i (u + 1))
    (hafter : ((S.setFile (u + 1) b).advance i p).Complete codec (u + 1) ∨ p.settled.Created)
    (habsent : p.settled ≠ .absent) : ((S.setFile (u + 1) b).advance i p).Inv codec := by
  have hu := ((h.linked i).bounded _ (target_eq hp)).2
  have hp' : ((S.setFile (u + 1) b).sys.clients i).phase = .committing t start (.write r u m) := hp
  apply h.of_setFile (Acts.of_setFile (acts_advance (S.setFile (u + 1) b) i p)) hnone
    (linked_advance hp' hu p fun _ => hdata) (files_advance _ i p) (target_eq hp) hbefore
  · refine hafter.imp id fun hcreated => ?_
    rw [Writing, phase_advance hp']
    refine ⟨hcreated, ?_⟩
    cases p with
    | opened c | wrote c => exact target_eq (S := S) hp
    | _ => exact hcreated.elim
  · rwa [phase_advance hp']
  · exact fun w hw => target_advance hp' p hw

end Stream

/-- A call on the stream of a transaction is on its own file. -/
theorem Undisturbed.not_owns {a : TableAction} (ha : S.Undisturbed a) (hv : S.touches a = some v)
    (hother : ∀ j, j ≠ i → ¬ a.Succeeds j) (j : ℕ) (hji : j ≠ i) : ¬ S.Owns j v :=
  fun hj => hother j hji (ha j hj.1 (hv.trans hj.2.symm))

theorem Inv.call (h : S.Inv codec) (hreads : S.sys.ReadsBack codec)
    (hnext : S.next codec fs process (.call i) = some S') : S'.Inv codec := by
  simp only [Table.next] at hnext
  split at hnext
  · next t start r u m hp hidle =>
    have hbefore : ¬ (S.streams i).phase.Created := by
      rw [hidle]
      exact id
    split at hnext
    · cases hnext
      exact h.advance hp (fun hne => absurd rfl hne) hbefore id False.elim
    · cases hnext
    · next data henc =>
      cases hnext
      have hphase : ∀ c : Prop, [Decidable c] →
          ¬ (if c then WritePhase.checking else .start).Plain := by
        intro c _
        split_ifs <;> exact id
      refine h.of_sameFiles (i := i) ?_ ?_ rfl hbefore ?_ ?_
      · exact ⟨fun _ _ => rfl, fun j hj => Function.update_of_ne hj .., rfl, fun _ => id⟩
      · refine ⟨fun _ => ⟨t, start, r, u, m, hp, ?_⟩, (h.linked i).bounded⟩
        simp only [Function.update_self]
        exact hreads i t start r u m data hp henc
      · simp only [Function.update_self]
        exact fun hcreated => hphase _ hcreated.plain
      · rintro v ⟨hplain, -⟩
        simp only [Function.update_self] at hplain
        exact absurd hplain (hphase _)
  · cases hnext

theorem Inv.conditionalOpen (h : S.Inv codec)
    (hnext : S.next codec fs process (.conditionalOpen i) = some S') : S'.Inv codec := by
  simp only [Table.next] at hnext
  split at hnext
  · next v htarget hphase =>
    cases hnext
    obtain ⟨t, start, r, u, m, hp, hdec⟩ := (h.linked i).data (hphase ▸ nofun)
    have hplain : ¬ (WritePhase.afterConditionalOpen (getManifestFilename v)
        (conditionalAnswer fs)).settled.Plain := by
      unfold conditionalAnswer
      split_ifs
      · exact Bool.true_eq_false.mp
      · exact id
    exact h.advance hp (fun _ => hdec) (hphase ▸ id) (fun hc => hplain hc.plain)
      fun hp => absurd hp hplain
  · cases hnext

section

variable (h : S.Inv codec)
include h

theorem Inv.check (ha : S.Undisturbed (.check i))
    (hnext : S.next codec fs process (.check i) = some S') : S'.Inv codec := by
  simp only [Table.next] at hnext
  split at hnext
  · next v htarget hphase =>
    cases hnext
    obtain ⟨t, start, r, u, m, hp, hdec⟩ := (h.linked i).data (hphase ▸ nofun)
    obtain rfl : v = u + 1 := Option.some.inj (htarget.symm.trans (target_eq hp))
    apply h.advance hp (fun _ => hdec) (hphase ▸ id)
    · simp only [WritePhase.afterCheck]
      split_ifs <;> exact id
    · simp only [WritePhase.afterCheck]
      split_ifs with hfound
      · exact False.elim
      · exact fun _ => ⟨Option.not_isSome_iff_eq_none.mp hfound, ha.not_owns htarget fun _ _ => id⟩
  · cases hnext

theorem Inv.openStream (hnext : S.next codec fs process (.openStream i) = some S') :
    S'.Inv codec := by
  simp only [Table.next] at hnext
  split at hnext
  · next v htarget hphase =>
    cases hnext
    obtain ⟨t, start, r, u, m, hp, hdec⟩ := (h.linked i).data (hphase ▸ nofun)
    obtain rfl : v = u + 1 := Option.some.inj (htarget.symm.trans (target_eq hp))
    have howns : S.Owns i (u + 1) := ⟨by rw [hphase]; trivial, htarget⟩
    exact h.advance_setFile hp (fun j hj hj' => hj (h.alone j i _ hj' howns)) hdec
      (.inl (h.free i _ hphase htarget)) (.inr rfl) nofun
  · cases hnext

theorem Inv.write (ha : S.Undisturbed (.write i k failure))
    (hnext : S.next codec fs process (.write i k failure) = some S') : S'.Inv codec := by
  simp only [Table.next] at hnext
  split at hnext
  · next v conditional htarget hphase =>
    cases hnext
    obtain ⟨t, start, r, u, m, hp, hdec⟩ := (h.linked i).data (hphase ▸ nofun)
    obtain rfl : v = u + 1 := Option.some.inj (htarget.symm.trans (target_eq hp))
    cases conditional with
    | true =>
      have hplain :
          ¬ (WritePhase.afterWrite true (failure.elim (.ok ()) .error)).settled.Plain := by
        cases failure with
        | none => exact Bool.true_eq_false.mp
        | some s => exact id
      exact h.advance hp (fun _ => hdec) (hphase ▸ Bool.true_eq_false.mp)
        (fun hc => hplain hc.plain) fun hp => absurd hp hplain
    | false =>
      have hwriting : S.Writing i (u + 1) := ⟨hphase ▸ rfl, htarget⟩
      obtain ⟨-, rfl⟩ := ha i hwriting.1.plain rfl
      exact h.advance_setFile (p := .wrote false) hp
        (ha.not_owns htarget fun j hj hj' => hj hj'.1.symm) hdec (.inr hwriting) (.inr rfl) nofun
  · cases hnext

theorem Inv.close (ha : S.Undisturbed (.close i k failure))
    (hnext : S.next codec fs process (.close i k failure) = some S') : S'.Inv codec := by
  simp only [Table.next] at hnext
  split at hnext
  · next v conditional htarget hphase =>
    cases hnext
    obtain ⟨t, start, r, u, m, hp, hdec⟩ := (h.linked i).data (hphase ▸ nofun)
    obtain rfl : v = u + 1 := Option.some.inj (htarget.symm.trans (target_eq hp))
    have hnone := ha.not_owns (i := i) htarget fun j hj hj' => hj hj'.1.symm
    cases conditional with
    | true =>
      have hreturns : ∀ result, (S.advance i
          (.afterClose (getManifestFilename (u + 1)) true result)).Inv codec := by
        intro result
        have hidle : (WritePhase.afterClose (getManifestFilename (u + 1)) true result).settled =
            .idle := by
          cases result with
          | ok u => rfl
          | error s =>
            simp only [WritePhase.afterClose]
            split_ifs <;> rfl
        refine h.advance hp (fun _ => hdec) (hphase ▸ Bool.true_eq_false.mp) ?_ ?_
        · rw [hidle]
          exact id
        · rw [hidle]
          exact False.elim
      cases failure with
      | some s => exact hreturns _
      | none =>
        simp only [Table.close]
        split_ifs with hfound
        · exact hreturns _
        · exact h.advance_setFile hp hnone hdec (.inl (Option.not_isSome_iff_eq_none.mp hfound))
            (.inl (complete_advance hp hdec)) nofun
    | false =>
      have hwriting : S.Writing i (u + 1) := ⟨hphase ▸ rfl, htarget⟩
      obtain ⟨-, rfl⟩ := ha i hwriting.1.plain rfl
      exact h.advance_setFile hp hnone hdec (.inr hwriting) (.inl (complete_advance hp hdec)) nofun
  · cases hnext

theorem Inv.next {a : TableAction} (ha : S.Undisturbed a) (hreads : S.sys.ReadsBack codec)
    (hnext : S.next codec fs process a = some S') : S'.Inv codec := by
  cases a with
  | step a =>
    obtain ⟨hwrite, sys, hsys, rfl⟩ := next_step hnext
    exact h.step ha hwrite hsys
  | call i => exact h.call hreads hnext
  | conditionalOpen i => exact h.conditionalOpen hnext
  | check i => exact h.check ha hnext
  | openStream i => exact h.openStream hnext
  | write i k failure => exact h.write ha hnext
  | close i k failure => exact h.close ha hnext

end

/-- The latest version can be read. -/
theorem Inv.opens (h : S.Inv codec) (hcreated : ∀ i, ¬ (S.streams i).phase.Created) :
    S.Reopens codec process := by
  intro i
  rcases h.latest with hzero | ⟨b, m, hb, hdec, hm⟩ | ⟨j, hj, -⟩
  · refine ⟨0, {}, ?_, .inl ⟨rfl, rfl⟩⟩
    simp [openLatest, System.readManifest, hzero, Except.map]
  · by_cases hzero : S.sys.latest = 0
    · refine ⟨0, {}, ?_, .inl ⟨rfl, rfl⟩⟩
      simp [openLatest, System.readManifest, hzero, Except.map]
    · refine ⟨S.sys.latest, m, ?_, .inr hm⟩
      have hread : (S.sys.readManifest codec process i S.sys.latest).2 = .ok m := by
        simp only [System.readManifest, if_neg hzero]
        cases hcache : S.sys.cache (process i) (getManifestFilename S.sys.latest) with
        | none => simp only [hb, hdec]
        | some m' =>
          obtain ⟨b', hb', hdec'⟩ := h.cache _ _ _ hcache
          cases hb.symm.trans hb'
          exact hdec'.symm.trans hdec
      rw [openLatest, hread]
      rfl
  · exact absurd hj (hcreated j)

theorem inv_initial {files : List (String × List β)} {reported : List (ℕ × Manifest)}
    (h : (initial files reported).Reopens codec process) : (initial files reported).Inv codec where
  linked _ := ⟨fun hne => absurd rfl hne, nofun⟩
  alone _ _ _ h := h.1.elim
  free _ _ h := nomatch h
  latest := by
    by_cases hzero : (initial files reported).sys.latest = 0
    · exact .inl hzero
    · obtain ⟨v, m, hopen, hm⟩ := h 0
      have hcache : (initial files reported).sys.cache (process 0)
          (getManifestFilename (initial files reported).sys.latest) = none := rfl
      simp only [openLatest, System.readManifest, if_neg hzero, hcache] at hopen
      cases hst : (initial files reported).sys.stored (initial files reported).sys.latest with
      | none => simp [hst, Except.map] at hopen
      | some b =>
        cases hdec : codec.decode b with
        | error s => simp [hst, hdec, Except.map] at hopen
        | ok m' =>
          simp only [hst, hdec, Except.map, Except.ok.injEq, Prod.mk.injEq] at hopen
          obtain ⟨rfl, rfl⟩ := hopen
          exact .inr (.inl ⟨b, m', hst, hdec, hm.resolve_left fun h => hzero h.1⟩)
  cache _ _ _ h := nomatch h
  uncached _ _ _ h := h.1.elim

end Steps

end MilvusStorage.Table
