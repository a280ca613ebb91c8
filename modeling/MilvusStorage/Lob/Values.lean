import Mathlib.Data.List.ReduceOption
import MilvusStorage.Lob.Stable

/-!
# Values and their references

What the calls of the writer do to the content of its files. A value that is written out of line is
appended to the current file, and its reference has the position where it went; the values of a
batch go one after the other.

A value can be appended if it `Fits`. A call that fails leaves a `Healthy` writer, to which some
values have been appended that no reference was returned for, or a `Failed` one.
-/

namespace MilvusStorage.Lob

open List Command AppendOnly

/-- The reference of a value that is kept inline, or that is a row of a file. -/
def reference (e : Bytes × Option (UUID × ℕ)) : Bytes :=
  match e.2 with
  | none => encodeInlineData e.1
  | some (fileId, n) => encodeLOBReference fileId (toSigned 32 n)

/-- The pending bytes and the offset of the row fit in 32 bits, if the value is not inline. -/
def Fits (config : LobColumnConfig) (w : LobColumnWriter) (data : Bytes) : Prop :=
  config.inlineThreshold ≤ data.length →
    w.pendingBuilder.bytes + data.length ≤ BinaryBuilder.memoryLimit ∧ w.currentFileRows < 2 ^ 31

/-- The length of the value fits in 32 bits, if it is not inline. -/
def Ready (config : LobColumnConfig) (guarded : Prop) (w : LobColumnWriter) (data : Bytes) : Prop :=
  (config.inlineThreshold ≤ data.length → data.length < 2 ^ 31) ∧ (guarded → Fits config w data)

theorem ready_of_fits {config : LobColumnConfig} {w : LobColumnWriter} {data : Bytes}
    (h : Fits config w data) : Ready config True w data := by
  refine ⟨fun hle => ?_, fun _ => h⟩
  have := (h hle).1
  rw [BinaryBuilder.memoryLimit] at this
  omega

/-! ## The builder -/

theorem BinaryBuilder.append_eq (b : BinaryBuilder) {data : Bytes} (h : data.length < 2 ^ 31) :
    b.append data (toSigned 32 data.length) = some ⟨b.values ++ [data]⟩ ∨
      b.append data (toSigned 32 data.length) = none ∧ memoryLimit < b.bytes + data.length := by
  rw [toSigned_natCast h, append]
  split_ifs with hzero hlimit
  · obtain rfl := length_eq_zero_iff.mp (show data.length = 0 by omega)
    exact .inl rfl
  · exact .inr ⟨rfl, by omega⟩
  · rw [Int.toNat_natCast, take_length]
    exact .inl rfl

section Specs

variable {env : Environment} {config : LobColumnConfig} {guarded : Prop} {c : UUID → List Bytes}
  {finished : List (UUID × LobFileResult)} {lag : ℕ} {w : LobColumnWriter} {data : Bytes}
  {values refs : List Bytes} {c' : UUID → List Bytes}

/-- A value is appended to the pending ones. -/
theorem Healthy.append (h : Healthy env config guarded c finished lag w)
    (hsome : w.vortexWriter.isSome) (hrows : guarded → w.currentFileRows < 2 ^ 31) (data : Bytes)
    (bytes : ℕ) :
    Healthy env config guarded (append c w.currentFileId data) finished (lag + 1) { w with
      pendingBuilder := ⟨w.pendingBuilder.values ++ [data]⟩
      pendingBytes := bytes
      currentFileRows := w.currentFileRows + 1 } := by
  refine ⟨h.closed_eq, h.distinct, h.current, ?_, fun e he => ?_, h.generated,
    fun id hid hnot => ?_, ?_, fun hg id => ?_, ?_⟩
  · simp [h.rows_eq]
  · rw [Stored, append_of_ne c data (h.ne_current he)]
    exact h.stored e he
  · rw [append_of_ne c data hid]
    exact h.content_eq_nil id hid hnot
  · exact congrArg (· + 1) h.counted
  · by_cases hid : id = w.currentFileId
    · rw [hid, append_self, length_append, ← h.rows_eq]
      exact hrows hg
    · rw [append_of_ne c data hid]
      exact h.bounded hg id
  · obtain ⟨hnone, -⟩ | ⟨vx, hvx, hopen, hpath, hvalues, hcreated⟩ := h.open_cases
    · simp [hnone] at hsome
    · simp [Current, hvx, hopen, hpath, hcreated, ← hvalues]

theorem pendingAppend_spec (hready : Ready config guarded w data)
    (hle : config.inlineThreshold ≤ data.length) :
    Spec (· = w) (pendingAppend env data)
      (fun _ => (· = { w with pendingBuilder := ⟨w.pendingBuilder.values ++ [data]⟩ }))
      (fun _ _ => ¬ guarded) := by
  refine spec_get_bind fun w' hw => ?_
  subst hw
  obtain happend | ⟨happend, hlimit⟩ := w'.pendingBuilder.append_eq (hready.1 hle)
  · rw [happend]
    apply spec_modify
    rintro _ rfl
    rfl
  · rw [happend]
    refine spec_get_bind fun w1 _ => spec_modify_bind fun _ _ => spec_fail fun _ _ hg => ?_
    exact absurd (hready.2 hg hle).1 (Nat.not_le_of_lt hlimit)

theorem appendLob_spec (h : Healthy env config guarded c finished lag w)
    (hready : Ready config guarded w data) (hle : config.inlineThreshold ≤ data.length) :
    Spec (· = w) (appendLob env config data)
      (fun ref w' => ∃ fileId, ref = reference (data, some (fileId, (c fileId).length)) ∧
        Healthy env config guarded (append c fileId data) finished (lag + 1) w')
      (fun _ w' => guarded → Healthy env config guarded c finished lag w') := by
  refine ((ensureVortexWriter_spec h).onError
    fun _ _ h _ => h).bind fun _ => spec_get_bind fun w' ⟨h', hsome, hpending, hrows⟩ => ?_
  have hready' : Ready config guarded w' data := by
    rwa [Ready, Fits, hpending, hrows]
  refine ((pendingAppend_spec hready' hle).onError
    fun _ _ hnot hg => absurd hg hnot).bind fun _ => spec_modify_bind fun w1 hw1 => spec_pure ?_
  rintro _ rfl
  subst hw1
  refine ⟨w'.currentFileId, ?_, h'.append hsome (fun hg => (hready'.2 hg hle).2) data _⟩
  rw [reference, h'.rows_eq]

/-! ## Single values -/

/-- The values have been written, and the references returned. -/
def Written (c : UUID → List Bytes) (values refs : List Bytes) (c' : UUID → List Bytes) : Prop :=
  ∃ es, es.map Prod.fst = values ∧ es.map reference = refs ∧ Appends c es c'

theorem Written.append {c'' : UUID → List Bytes} {values' refs' : List Bytes}
    (h : Written c values refs c') (h' : Written c' values' refs' c'') :
    Written c (values ++ values') (refs ++ refs') c'' := by
  obtain ⟨es, rfl, rfl, happends⟩ := h
  obtain ⟨es', rfl, rfl, happends'⟩ := h'
  exact ⟨es ++ es', map_append, map_append, happends.trans happends'⟩

theorem Written.extends (h : Written c values refs c') : Extends c c' := by
  obtain ⟨es, -, -, happends⟩ := h
  exact happends.extends

section Outcomes

variable (env : Environment) (config : LobColumnConfig) (guarded : Prop) (c : UUID → List Bytes)

/-- The call has written the values. -/
def Wrote (values refs : List Bytes) (w : LobColumnWriter) : Prop :=
  Repeats env w ∨
    ∃ c' finished, Written c values refs c' ∧ Healthy env config guarded c' finished 0 w

/-- The call has failed. -/
def Interrupted (w : LobColumnWriter) : Prop :=
  Repeats env w ∨ (guarded → Failed env w ∨
    ∃ c' finished, Extends c c' ∧ Healthy env config guarded c' finished 0 w)

end Outcomes

theorem Interrupted.of_extends (h : Interrupted env config guarded c' w) (hextends : Extends c c') :
    Interrupted env config guarded c w := by
  obtain hrepeats | h := h
  · exact .inl hrepeats
  refine .inr fun hg => ?_
  obtain hfailed | ⟨c'', finished, hextends', hhealthy⟩ := h hg
  · exact .inl hfailed
  · exact .inr ⟨c'', finished, hextends.trans hextends', hhealthy⟩

/-- Only the statistics change, and one more value is counted out of line. -/
def CountsLob (g : LobColumnWriter → LobColumnWriter) : Prop :=
  ∀ w, ∃ stats n, g w = { w with stats := stats, writtenRows := n } ∧
    stats.lobEntries = w.stats.lobEntries + 1

variable {g : LobColumnWriter → LobColumnWriter}

theorem Healthy.countsLob (hg : CountsLob g)
    (h : Healthy env config guarded c finished (lag + 1) w) :
    Healthy env config guarded c finished lag (g w) := by
  obtain ⟨stats, n, hw, hstats⟩ := hg w
  rw [hw]
  refine ⟨h.closed_eq, h.distinct, h.current, h.rows_eq, h.stored, h.generated, h.content_eq_nil,
    ?_, h.bounded, h.vortex⟩
  rw [h.counted, hstats]
  omega

/-- A value is written out of line. -/
theorem lob_spec (h : Healthy env config guarded c finished 0 w)
    (hready : Ready config guarded w data) (hle : config.inlineThreshold ≤ data.length)
    (hg : CountsLob g) : Spec (· = w) (do
        let ref ← appendLob env config data
        modify g
        flushFull env config
        pure ref)
      (fun ref => Wrote env config guarded c [data] [ref])
      (fun _ => Interrupted env config guarded c) := by
  refine ((appendLob_spec h hready hle).onError
    fun _ w' h' => .inr fun hg => .inr ⟨c, finished, .refl c, h' hg⟩).bind fun ref => ?_
  refine spec_of_forall fun w' ⟨fileId, href, h'⟩ => spec_modify_bind fun _ hw => ?_
  subst hw
  refine ((flushFull_spec.from (h'.countsLob hg)).onError
    fun _ _ hb => .inr fun _ => .inl hb).bind fun _ => spec_pure ?_
  rintro w1 (hrepeats | ⟨finished', h1⟩)
  · exact .inl hrepeats
  refine .inr ⟨_, finished', ⟨[(data, some (fileId, (c fileId).length))], rfl, ?_,
    (Appends.nil).stored data fileId⟩, h1⟩
  simp [href]

/-- A value is kept inline. -/
theorem wrote_inline {w' : LobColumnWriter} (h : Healthy env config guarded c finished 0 w)
    (hw : ∃ stats n, w' = { w with stats := stats, writtenRows := n } ∧
      stats.lobEntries = w.stats.lobEntries) (data : Bytes) :
    Wrote env config guarded c [data] [encodeInlineData data] w' := by
  obtain ⟨stats, n, rfl, hstats⟩ := hw
  refine .inr ⟨c, finished, ⟨[(data, none)], rfl, rfl, (Appends.nil).kept data⟩, ?_⟩
  exact h.of_eq rfl rfl rfl rfl rfl hstats rfl rfl rfl

/-- Statistics that count no value out of line do not matter. -/
theorem Wrote.of_stats {w' : LobColumnWriter} (h : Wrote env config guarded c values refs w)
    (hw : ∃ stats n, w' = { w with stats := stats, writtenRows := n } ∧
      stats.lobEntries = w.stats.lobEntries) : Wrote env config guarded c values refs w' := by
  obtain ⟨stats, n, rfl, hstats⟩ := hw
  obtain hrepeats | ⟨c', finished', hwritten, h'⟩ := h
  · exact .inl hrepeats
  · exact .inr ⟨c', finished', hwritten, h'.of_eq rfl rfl rfl rfl rfl hstats rfl rfl rfl⟩

section

variable (h : Healthy env config guarded c finished 0 w) (hready : Ready config guarded w data)
include h hready

theorem writeData_spec :
    Spec (· = w) (writeData env config data) (fun ref => Wrote env config guarded c [data] [ref])
      (fun _ => Interrupted env config guarded c) := by
  refine spec_get_bind fun w' hw => ?_
  subst hw
  refine spec_ite (fun hclosed => ?_) fun _ => spec_ite (fun _ => ?_) fun hle => ?_
  · simp [h.closed_eq] at hclosed
  · refine spec_modify_bind fun _ hw => spec_pure ?_
    subst hw
    rintro _ rfl
    refine wrote_inline h ?_ data
    exact ⟨_, _, rfl, rfl⟩
  · exact lob_spec h hready (by omega) fun w => ⟨_, _, rfl, rfl⟩

theorem writeItem_spec :
    Spec (· = w) (writeItem env config data) (fun ref => Wrote env config guarded c [data] [ref])
      (fun _ => Interrupted env config guarded c) := by
  refine Spec.bind (Q := fun ref => Wrote env config guarded c [data] [ref]) ?_ fun ref => ?_
  · refine spec_ite (fun _ => ?_) fun hle => ?_
    · refine spec_modify_bind fun _ hw => spec_pure ?_
      subst hw
      rintro _ rfl
      refine wrote_inline h ?_ data
      exact ⟨_, _, rfl, rfl⟩
    · exact lob_spec h hready (by omega) fun w => ⟨_, _, rfl, rfl⟩
  · refine spec_modify_bind fun w' hw => spec_pure ?_
    rintro _ rfl
    exact hw.of_stats ⟨_, _, rfl, rfl⟩

end

/-! ## Sequences of values -/

section Each

variable (env : Environment) (config : LobColumnConfig) (G : LobColumnWriter → Bytes → Prop)

/-- A condition on the writer and a value, for each item of a batch when its turn comes. -/
def EachItem : LobColumnWriter → List Bytes → Prop
  | _, [] => True
  | w, data :: items => G w data ∧
      ∀ w' ref, writeItem env config data w = (w', .ok ref) → EachItem w' items

/-- The same for the values of an array. -/
def EachValue : LobColumnWriter → List (Option Bytes) → Prop
  | _, [] => True
  | w, none :: values => EachValue w.countNull values
  | w, some data :: values => G w data ∧
      ∀ w' ref, writeData env config data w = (w', .ok ref) → EachValue w' values

/-- The same for the values of a call. -/
def Call.Each (w : LobColumnWriter) : Call → Prop
  | writeData data => G w data
  | writeBatchData items => EachItem env config G w items
  | writeArrowArray dataArray => EachValue env config G w dataArray
  | flush => True
  | close => True

variable {env config G} {items : List Bytes}

theorem eachItem_of_forall (h : ∀ data ∈ items, ∀ w, G w data) (w : LobColumnWriter) :
    EachItem env config G w items := by
  induction items generalizing w with
  | nil => trivial
  | cons data items ih =>
    exact ⟨h data mem_cons_self w, fun w' _ _ => ih (fun d hd => h d (mem_cons_of_mem _ hd)) w'⟩

variable {values : List (Option Bytes)}

theorem eachValue_of_forall (h : ∀ data ∈ values.reduceOption, ∀ w, G w data)
    (w : LobColumnWriter) : EachValue env config G w values := by
  induction values generalizing w with
  | nil => trivial
  | cons value values ih =>
    cases value with
    | none => exact ih (h) _
    | some data =>
      exact ⟨h data mem_cons_self w, fun w' _ _ => ih (fun d hd => h d (mem_cons_of_mem _ hd)) w'⟩

/-- A condition on the values alone. -/
theorem Call.each_of_forall {call : Call} (h : ∀ data ∈ call.values, ∀ w, G w data)
    (w : LobColumnWriter) : call.Each env config G w := by
  cases call with
  | writeData data => exact h data (mem_singleton_self data) w
  | writeBatchData items => exact eachItem_of_forall h w
  | writeArrowArray dataArray => exact eachValue_of_forall h w
  | flush => trivial
  | close => trivial

variable {G' : LobColumnWriter → Bytes → Prop} {w : LobColumnWriter}

section

variable (hG : ∀ w data, G w data → G' w data)
include hG

theorem EachItem.mono (h : EachItem env config G w items) : EachItem env config G' w items := by
  induction items generalizing w with
  | nil => trivial
  | cons data items ih => exact ⟨hG w data h.1, fun w' ref hw => ih (h.2 w' ref hw)⟩

theorem EachValue.mono (h : EachValue env config G w values) :
    EachValue env config G' w values := by
  induction values generalizing w with
  | nil => trivial
  | cons value values ih =>
    cases value with
    | none => exact ih h
    | some data => exact ⟨hG w data h.1, fun w' ref hw => ih (h.2 w' ref hw)⟩

theorem Call.Each.mono {call : Call} (h : call.Each env config G w) :
    call.Each env config G' w := by
  cases call with
  | writeData data => exact hG w data h
  | writeBatchData items => exact EachItem.mono hG h
  | writeArrowArray dataArray => exact EachValue.mono hG h
  | flush => trivial
  | close => trivial

end

end Each

theorem wrote_nil (h : Healthy env config guarded c finished 0 w) :
    Wrote env config guarded c [] [] w := .inr ⟨c, finished, ⟨[], rfl, rfl, .nil⟩, h⟩

/-- More values are written after the first one. -/
theorem Wrote.cons {ref : Bytes} (h : Wrote env config guarded c [data] [ref] w) {β : Type}
    {x : Step β} {refs : β → List Bytes} (hstable : Keeps (Repeats env) x)
    (hx : ∀ c' finished', Healthy env config guarded c' finished' 0 w → Spec (· = w) x
      (fun b => Wrote env config guarded c' values (refs b))
      (fun _ => Interrupted env config guarded c')) :
    Spec (· = w) x (fun b => Wrote env config guarded c (data :: values) (ref :: refs b))
      (fun _ => Interrupted env config guarded c) := by
  obtain hrepeats | ⟨c', finished', hwritten, h'⟩ := h
  · exact (hstable.from hrepeats).post (fun _ _ => .inl) fun _ _ => .inl
  · refine (hx c' finished' h').post ?_ fun _ _ hi => hi.of_extends hwritten.extends
    rintro b w1 (hrepeats | ⟨c'', finished'', hwritten', h''⟩)
    · exact .inl hrepeats
    · exact .inr ⟨c'', finished'', hwritten.append hwritten', h''⟩

section

variable (h : Healthy env config guarded c finished 0 w)

include h

section

variable {items : List Bytes} (hready : EachItem env config (Ready config guarded) w items)
include hready

theorem writeItems_spec :
    Spec (· = w) (forEach (writeItem env config) items) (Wrote env config guarded c items)
      (fun _ => Interrupted env config guarded c) := by
  induction items generalizing c finished w with
  | nil =>
    apply spec_pure
    rintro _ rfl
    exact wrote_nil h
  | cons data items ih =>
    refine (writeItem_spec h hready.1).and_run.bind fun ref =>
      spec_of_forall fun w' ⟨hwrote, hrun⟩ => ?_
    refine (hwrote.cons (keeps_forEach stable_repeats.writeItem items)
      fun c' finished' h' => ih h' (hready.2 w' ref hrun)).bind fun refs => spec_pure fun _ h => h

theorem writeBatchData_spec :
    Spec (· = w) (writeBatchData env config items) (Wrote env config guarded c items)
      (fun _ => Interrupted env config guarded c) := by
  refine spec_get_bind fun w' hw => ?_
  subst hw
  refine spec_ite (fun hclosed => ?_) fun _ => ?_
  · simp [h.closed_eq] at hclosed
  · refine (writeItems_spec h hready).bind fun refs => spec_modify_bind fun w1 hw => spec_pure ?_
    rintro _ rfl
    exact hw.of_stats ⟨_, _, rfl, rfl⟩

end

/-- A value of an array is written, and its reference is appended to the result. -/
theorem writeArrowValue_spec (hready : Ready config guarded w data) (builder : BinaryBuilder) :
    Spec (· = w) (writeArrowValue env config builder (some data))
      (fun p w' => ∃ ref, p.2 = some ref ∧ Wrote env config guarded c [data] [ref] w' ∧
        writeData env config data w = (w', .ok ref))
      (fun _ => Interrupted env config guarded c) := by
  refine (writeData_spec h hready).and_run.bind fun ref => ?_
  refine Spec.bind (spec_ofOption ?_ fun _ _ => id)
    fun builder' => spec_pure fun w' hw => ⟨ref, rfl, hw⟩
  rintro w' ⟨hrepeats | ⟨c', finished', hwritten, h'⟩, -⟩
  · exact .inl hrepeats
  · exact .inr fun _ => .inr ⟨c', finished', hwritten.extends, h'⟩

theorem writeArrowValues_spec {values : List (Option Bytes)}
    (hready : EachValue env config (Ready config guarded) w values) (builder : BinaryBuilder) :
    Spec (· = w) (forEachFrom (writeArrowValue env config) builder values)
      (fun refs => Wrote env config guarded c values.reduceOption refs.reduceOption)
      (fun _ => Interrupted env config guarded c) := by
  induction values generalizing c finished w builder with
  | nil =>
    apply spec_pure
    rintro _ rfl
    exact wrote_nil h
  | cons value values ih =>
    cases value with
    | none =>
      refine Spec.bind (Q := fun p w' => p.2 = none ∧ w' = w.countNull)
        (spec_modify_bind fun _ hw => spec_pure ?_) ?_
      · subst hw
        exact fun _ hw => ⟨rfl, hw⟩
      · rintro ⟨builder', ref⟩
        refine spec_of_forall fun w' ⟨href, hw⟩ => ?_
        subst href hw
        have h' : Healthy env config guarded c finished 0 w.countNull :=
          h.of_eq rfl rfl rfl rfl rfl rfl rfl rfl rfl
        exact (ih h' hready _).bind fun refs => spec_pure fun _ => id
    | some data =>
      apply (writeArrowValue_spec h hready.1 builder).bind
      rintro ⟨builder', ref⟩
      refine spec_of_forall fun w' ⟨ref', href, hwrote, hrun⟩ => ?_
      subst href
      refine (hwrote.cons (keeps_forEachFrom stable_repeats.writeArrowValue builder' values)
        fun c' finished' h' => ih h' (hready.2 w' ref' hrun) builder').bind
        fun refs => spec_pure fun _ hw => ?_
      rwa [reduceOption_cons_of_some]

theorem writeArrowArray_spec {dataArray : List (Option Bytes)}
    (hready : EachValue env config (Ready config guarded) w dataArray) :
    Spec (· = w) (writeArrowArray env config dataArray)
      (fun refs => Wrote env config guarded c dataArray.reduceOption refs.reduceOption)
      (fun _ => Interrupted env config guarded c) := by
  refine spec_get_bind fun w' hw => ?_
  subst hw
  refine spec_ite (fun hclosed => ?_) fun _ => writeArrowValues_spec h hready {}
  simp [h.closed_eq] at hclosed

end

/-! ## Flush and close -/

theorem flush_spec (h : Healthy env config guarded c finished 0 w) :
    Spec (· = w) (flush env config) (fun _ => Wrote env config guarded c [] [])
      (fun _ => Failed env) := by
  refine spec_get_bind fun w' hw => ?_
  subst hw
  refine spec_ite (fun hclosed => ?_) fun _ => ?_
  · simp [h.closed_eq] at hclosed
  · refine (flushPending_spec.from h).bind fun _ => maybeRollFile_spec.post ?_ fun _ _ => id
    rintro _ w1 (hrepeats | ⟨finished', h1⟩)
    · exact .inl hrepeats
    · exact wrote_nil h1

theorem close_spec (h : Healthy env config guarded c finished 0 w) : Spec (· = w) (close env)
      (fun files w' => w'.closed = true ∧
        ∃ finished', files = finished'.map Prod.snd ∧ Settled env config guarded c finished' 0 w')
      (fun _ => Failed env) := by
  refine spec_get_bind fun w' hw => ?_
  subst hw
  refine spec_ite (fun hclosed => ?_) fun _ => ?_
  · simp [h.closed_eq] at hclosed
  · refine (flushPending_spec.from h).bind fun _ => closeCurrentFile_spec.bind fun _ => ?_
    refine spec_modify_bind fun w1 ⟨_, finished', hs⟩ => spec_get_bind fun w2 hw => spec_pure ?_
    rintro _ rfl
    subst hw
    exact ⟨rfl, finished', hs.createdFiles_eq, hs.vortexWriter_eq, hs.values_eq, hs.createdFiles_eq,
      hs.stored, hs.generated, hs.content_eq_nil, hs.counted, hs.bounded⟩

end Specs

end MilvusStorage.Lob
