import MilvusStorage.Predicate.Semantics
import MilvusStorage.Predicate.Supported

/-!
# When a filter keeps every matching row

A filter must be true on every row on which the predicate is. Dropping one side of a conjunction
makes the filter weaker, which is fine where the conjunction stands for itself; under a negation, or
as an operand of a comparison, it is not. A number that is rounded changes its value, which is not
fine anywhere.

`parsePredicateWithSchema_sound` is the conclusion for predicates.
-/

namespace MilvusStorage.Predicate

open Except

variable {F R V : Type} (nums : Numbers F) (schema : List (String × ColumnType))

/-- The expression is not supported. -/
def dropped (e : SqlExpr) : Bool := (kind nums schema e).isNone

/-- The literal of the number has its value: an `f64` may have been rounded. -/
def Numbers.exact (s : String) : Bool :=
  match nums.parseI64 s, nums.parseF64 s with
  | some _, _ => true
  | none, some f => (nums.ofFloat f).isSome && nums.ofFloat f = nums.decimal s
  | none, none => true

/-- The same for the operand of a minus sign. -/
def exactMinus : SqlExpr → Bool
  | .value (.number s) => nums.exact s
  | _ => true

mutual

/-- No conjunction in the expression loses a side, and the numbers are exact. -/
def exact : SqlExpr → Bool
  | .value (.number s) => nums.exact s
  | .unaryOp op operand =>
    match op with
    | .not => exact operand
    | .minus => exactMinus nums operand
    | .other _ => true
  | .binaryOp left op right =>
    (op ≠ .and || !(dropped nums schema left || dropped nums schema right)) &&
      (exact left && exact right)
  | .nested inner => exact inner
  | .inList target list _ => exact target && exactItems list
  | _ => true

def exactItems : List SqlExpr → Bool
  | [] => true
  | item :: list => exact item && exactItems list

end

/-- A conjunction in the expression loses a side only where `positive` is true; a negation turns
`positive` around, and operands of comparisons and of `IN` have to be exact. -/
def tolerates (positive : Bool) : SqlExpr → Bool
  | .unaryOp op operand =>
    match op with
    | .not => tolerates (!positive) operand
    | .minus => exactMinus nums operand
    | .other _ => true
  | .binaryOp left op right =>
    match op with
    | .and =>
      if dropped nums schema left then positive && tolerates positive right
      else if dropped nums schema right then positive && tolerates positive left
      else tolerates positive left && tolerates positive right
    | .or => tolerates positive left && tolerates positive right
    | .cmp _ => exact nums schema left && exact nums schema right
    | .other _ => true
  | .nested inner => tolerates positive inner
  | e => exact nums schema e

variable {nums schema} {M : Meaning F R V} {row : R} {f : Expression F} {out lhs rhs : Out F}
  {ty : Option ColumnType} {e : SqlExpr}

theorem extractExpr_of_itemExpr {e : Expression F} (h : itemExpr ty out = some e) :
    extractExpr out = some e := by
  cases out with
  | ok e' => exact h
  | okCol e' ty' => exact h
  | okLit e' ty' =>
    simp only [itemExpr] at h
    split_ifs at h
    exact h
  | drop => cases h

@[simp] theorem extractExpr_ok (e : Expression F) : extractExpr (.ok e) = some e := rfl

theorem extractExpr_combineNot (inner : Out F) :
    extractExpr (combineNot inner) = (extractExpr inner).map .not := by
  unfold combineNot
  cases extractExpr inner <;> rfl

/-- A conjunction keeps the sides that are not dropped. -/
theorem extractExpr_combineAnd (h : extractExpr (combineAnd lhs rhs) = some f) :
    extractExpr lhs = none ∧ extractExpr rhs = some f ∨
      extractExpr lhs = some f ∧ extractExpr rhs = none ∨
      ∃ a b, extractExpr lhs = some a ∧ extractExpr rhs = some b ∧ f = .and a b := by
  unfold combineAnd at h
  split at h
  · next a b ha hb => exact .inr (.inr ⟨a, b, ha, hb, (Option.some.inj h).symm⟩)
  · next a ha hb => exact .inr (.inl ⟨ha.trans h, hb⟩)
  · next b ha hb => exact .inl ⟨ha, hb.trans h⟩
  · cases h

theorem extractExpr_combineOr (h : extractExpr (combineOr lhs rhs) = some f) :
    ∃ a b, extractExpr lhs = some a ∧ extractExpr rhs = some b ∧ f = .or a b := by
  unfold combineOr at h
  split at h
  · next a b ha hb => exact ⟨a, b, ha, hb, (Option.some.inj h).symm⟩
  · cases h

theorem extractExpr_combineCmp {op : Comparison}
    (h : extractExpr (combineCmp op lhs rhs) = some f) :
    ∃ a b, extractExpr lhs = some a ∧ extractExpr rhs = some b ∧ f = .cmp op a b := by
  unfold combineCmp at h
  split_ifs at h
  · split at h
    · next a b ha hb => exact ⟨a, b, ha, hb, (Option.some.inj h).symm⟩
    · cases h
  · cases h

theorem dropped_eq (hconv : convertExpr nums schema e = .ok out) :
    dropped nums schema e = (extractExpr out).isNone := by
  rw [dropped, kind_of_convertExpr e out hconv, ← Option.not_isSome, ← Option.not_isSome,
    isSome_extractExpr]

theorem exists_of_not_dropped (hconv : convertExpr nums schema e = .ok out)
    (h : dropped nums schema e = false) :
    ∃ f, extractExpr out = some f := by
  rw [dropped_eq hconv] at h
  exact Option.isSome_iff_exists.mp (by simpa using h)

/-! ## Exact translation -/

/-- The translation of an expression has the value of the expression. -/
def Faithful (nums : Numbers F) (schema : List (String × ColumnType)) (M : Meaning F R V) (row : R)
    (e : SqlExpr) : Prop :=
  ∀ out f, convertExpr nums schema e = .ok out → extractExpr out = some f →
    exact nums schema e = true → f.eval nums M row = e.eval nums M row

theorem eval_litOut {l : Option (Literal F)} (h : extractExpr (litOut nums l) = some f) :
    ∃ l', l = some l' ∧ f = .lit l' := by
  cases l with
  | none => cases h
  | some l' => exact ⟨l', rfl, (Option.some.inj h).symm⟩

/-- A literal that is exact has the value of the number. -/
theorem literal_of_exact {s : String} {l : Literal F} (hl : nums.literal s = some l)
    (h : nums.exact s = true) : ∃ q, nums.decimal s = some q ∧ M.literal nums l = M.number q := by
  rw [Numbers.literal] at hl
  rw [Numbers.exact] at h
  cases hi : nums.parseI64 s with
  | some i =>
    simp only [hi, Option.some.injEq] at hl
    subst hl
    exact ⟨i, nums.decimal_of_parseI64 s i hi, rfl⟩
  | none =>
    simp only [hi] at hl h
    obtain ⟨f, hf, rfl⟩ := Option.map_eq_some_iff.mp hl
    simp only [hf, Bool.and_eq_true, decide_eq_true_eq] at h
    obtain ⟨q, hq⟩ := Option.isSome_iff_exists.mp h.1
    exact ⟨q, h.2.symm.trans hq, by simp [Meaning.literal, hq]⟩

theorem negLiteral_of_exact {s : String} {l : Literal F} (hl : nums.negLiteral s = some l)
    (h : nums.exact s = true) :
    ∃ q, nums.decimal s = some q ∧ M.literal nums l = M.number (-q) := by
  rw [Numbers.negLiteral] at hl
  rw [Numbers.exact] at h
  cases hi : nums.parseI64 s with
  | some i =>
    simp only [hi, Option.some.injEq] at hl
    subst hl
    exact ⟨i, nums.decimal_of_parseI64 s i hi, by simp [Meaning.literal]⟩
  | none =>
    simp only [hi] at hl h
    obtain ⟨f, hf, rfl⟩ := Option.map_eq_some_iff.mp hl
    simp only [hf, Bool.and_eq_true, decide_eq_true_eq] at h
    obtain ⟨q, hq⟩ := Option.isSome_iff_exists.mp h.1
    exact ⟨q, h.2.symm.trans hq, by simp [Meaning.literal, nums.ofFloat_neg, hq]⟩

theorem faithful_value (v : Value) : Faithful nums schema M row (.value v) := by
  intro out f hconv hf hexact
  cases hconv
  obtain ⟨l, hl, rfl⟩ := eval_litOut hf
  rw [SqlExpr.eval, Expression.eval]
  cases v with
  | number s =>
    obtain ⟨q, hq, hvalue⟩ := literal_of_exact (M := M) hl hexact
    simp [evalValue, evalNumber, hq, hvalue]
  | null => cases hl
  | other id => cases hl
  | _ =>
    cases hl
    rfl

theorem faithful_minus (e : SqlExpr) : Faithful nums schema M row (.unaryOp .minus e) := by
  intro out f hconv hf hexact
  cases hconv
  rw [SqlExpr.eval]
  cases e with
  | value v =>
    cases v with
    | number s =>
      obtain ⟨l, hl, rfl⟩ := eval_litOut hf
      obtain ⟨q, hq, hvalue⟩ := negLiteral_of_exact (M := M) hl hexact
      simp [evalMinus, evalNumber, hq, Expression.eval, hvalue]
    | _ => cases hf
  | _ => cases hf

section

variable {list : List SqlExpr} (hlist : ∀ e ∈ list, Faithful nums schema M row e)
  (hexact : exactItems nums schema list = true)
include hlist hexact

/-- The items of an `IN` list, after some of them. -/
theorem eval_convertItems {target : Expression F} {acc : Option (Expression F)}
    {found : Option Bool} (hacc : ∀ g, acc = some g → g.eval nums M row = M.reify found)
    (hnone : acc = none → found = some false)
    (hconv : convertItems nums schema target ty acc list = .ok (some f)) :
    f.eval nums M row = M.reify ((SqlExpr.evalItems nums M row list).foldl
      (fun acc w => Kleene.or acc (M.cmp .eq (target.eval nums M row) w)) found) := by
  induction list generalizing acc found with
  | nil =>
    exact hacc f (ok.inj hconv)
  | cons item list ih =>
    rw [convertItems, bind_eq_ok] at hconv
    obtain ⟨out, hout, hconv⟩ := hconv
    rw [exactItems, Bool.and_eq_true] at hexact
    cases hitem : itemExpr ty out with
    | none =>
      rw [hitem] at hconv
      cases pure_eq_ok_iff.mp hconv
    | some e =>
      rw [hitem] at hconv
      have he :=
        hlist item List.mem_cons_self out e hout (extractExpr_of_itemExpr hitem) hexact.1
      rw [SqlExpr.evalItems, ← he]
      refine ih (fun e' he' => hlist e' (List.mem_cons_of_mem _ he')) hexact.2 (fun g hg => ?_)
        (fun h => by cases h) hconv
      cases hg
      cases acc with
      | none => simp [appendItem, Expression.eval, hnone rfl]
      | some prev => simp [appendItem, Expression.eval, hacc prev rfl]

theorem eval_finishInList {target : Expression F} {negated : Bool} {r : Option (Expression F)}
    (hconv : convertItems nums schema target ty none list = .ok r)
    (hf : extractExpr (finishInList negated r) = some f) : f.eval nums M row = M.reify (if negated
      then Kleene.not (M.isIn (target.eval nums M row) (SqlExpr.evalItems nums M row list))
      else M.isIn (target.eval nums M row) (SqlExpr.evalItems nums M row list)) := by
  cases r with
  | none => cases hf
  | some combined =>
    have heval := eval_convertItems hlist hexact (fun g hg => by cases hg) (fun _ => rfl) hconv
    cases hf
    cases negated with
    | false => exact heval
    | true => simp [Expression.eval, heval, Meaning.isIn]

end

/-- **Exact translation.** -/
theorem eval_of_exact (e : SqlExpr) : Faithful nums schema M row e := by
  induction e using SqlExpr.ind with
  | identifier name =>
    intro out f hconv hf _
    rw [convertExpr] at hconv
    simp only [convertIdentifier] at hconv
    rw [SqlExpr.eval]
    split_ifs at hconv
    · cases hconv
      cases hf
      rfl
    · split at hconv
      · cases hconv
        cases hf
        rfl
      · cases hconv
  | value v => exact faithful_value v
  | unaryOp op e ih =>
    cases op with
    | not =>
      intro out f hconv hf hexact
      obtain ⟨inner, hinner, rfl⟩ := convertExpr_not hconv
      rw [extractExpr_combineNot] at hf
      obtain ⟨g, hg, rfl⟩ := Option.map_eq_some_iff.mp hf
      have hexact' : exact nums schema e = true := by simpa [exact] using hexact
      rw [Expression.eval, SqlExpr.eval, ih inner g hinner hg hexact']
    | minus => exact faithful_minus e
    | other id =>
      intro out f hconv hf _
      rw [convertExpr] at hconv
      cases hconv
      cases hf
  | binaryOp l op r ihl ihr =>
    intro out f hconv hf hexact
    obtain ⟨lhs, rhs, hl, hr, rfl⟩ := convertExpr_binaryOp hconv
    rw [exact, Bool.and_eq_true, Bool.and_eq_true] at hexact
    obtain ⟨hkept, hel, her⟩ := hexact
    cases op with
    | and =>
      simp only [ne_eq, not_true_eq_false, decide_false, Bool.false_or, Bool.not_eq_true',
        Bool.or_eq_false_iff] at hkept
      obtain ⟨a, ha⟩ := exists_of_not_dropped hl hkept.1
      obtain ⟨b, hb⟩ := exists_of_not_dropped hr hkept.2
      simp only [combine, combineAnd, ha, hb, extractExpr_ok, Option.some.injEq] at hf
      subst hf
      rw [SqlExpr.eval, Expression.eval, ihl lhs a hl ha hel, ihr rhs b hr hb her]
    | or =>
      obtain ⟨a, b, ha, hb, rfl⟩ := extractExpr_combineOr hf
      rw [SqlExpr.eval, Expression.eval, ihl lhs a hl ha hel, ihr rhs b hr hb her]
    | cmp op =>
      obtain ⟨a, b, ha, hb, rfl⟩ := extractExpr_combineCmp hf
      rw [SqlExpr.eval, Expression.eval, ihl lhs a hl ha hel, ihr rhs b hr hb her]
    | other id => cases hf
  | nested e ih =>
    intro out f hconv hf hexact
    rw [convertExpr] at hconv
    rw [exact] at hexact
    rw [SqlExpr.eval]
    exact ih out f hconv hf hexact
  | inList target list negated iht ihl =>
    intro out f hconv hf hexact
    rw [convertExpr, bind_eq_ok] at hconv
    obtain ⟨tout, ht, hconv⟩ := hconv
    rw [exact, Bool.and_eq_true] at hexact
    rw [SqlExpr.eval]
    cases tout with
    | okCol t ty | ok t =>
      rw [bind_eq_ok] at hconv
      obtain ⟨r, hr, hout⟩ := hconv
      cases hout
      rw [eval_finishInList ihl hexact.2 hr hf, iht _ t ht rfl hexact.1]
    | okLit t ty | drop =>
      cases hconv
      cases hf
  | unsupported id =>
    intro out f hconv hf _
    rw [convertExpr] at hconv
    cases hconv
    cases hf

/-! ## Tolerated drops -/

theorem holds_of_exact {p : Bool} (hconv : convertExpr nums schema e = .ok out)
    (hf : extractExpr out = some f) (hexact : exact nums schema e = true)
    (he : M.holds (e.eval nums M row) = some p) :
    M.holds (f.eval nums M row) = some p := by
  rw [eval_of_exact e out f hconv hf hexact, he]

/-- **Tolerated drops.** Where `p` is the polarity, the translation is `p` wherever the expression
is. -/
theorem holds_of_tolerates (e : SqlExpr) (p : Bool) (hconv : convertExpr nums schema e = .ok out)
    (hf : extractExpr out = some f) (htol : tolerates nums schema p e = true)
    (he : M.holds (e.eval nums M row) = some p) : M.holds (f.eval nums M row) = some p := by
  induction e using SqlExpr.ind generalizing p out f with
  | identifier name | value v | inList target list negated | unsupported id =>
    exact holds_of_exact hconv hf htol he
  | nested e ih =>
    rw [convertExpr] at hconv
    rw [tolerates] at htol
    rw [SqlExpr.eval] at he
    exact ih p hconv hf htol he
  | unaryOp op e ih =>
    cases op with
    | minus => exact holds_of_exact hconv hf (by simpa [tolerates, exact] using htol) he
    | other id => exact holds_of_exact hconv hf (by simp [exact]) he
    | not =>
      obtain ⟨inner, hinner, rfl⟩ := convertExpr_not hconv
      rw [extractExpr_combineNot] at hf
      obtain ⟨g, hg, rfl⟩ := Option.map_eq_some_iff.mp hf
      have htol' : tolerates nums schema (!p) e = true := by simpa [tolerates] using htol
      rw [SqlExpr.eval, Meaning.holds_reify, Kleene.not_eq_some] at he
      rw [Expression.eval, Meaning.holds_reify, Kleene.not_eq_some]
      exact ih (!p) hinner hg htol' he
  | binaryOp l op r ihl ihr =>
    obtain ⟨lhs, rhs, hl, hr, rfl⟩ := convertExpr_binaryOp hconv
    cases op with
    | other id => cases hf
    | cmp op =>
      obtain ⟨a, b, ha, hb, rfl⟩ := extractExpr_combineCmp hf
      rw [tolerates, Bool.and_eq_true] at htol
      rw [SqlExpr.eval] at he
      rw [Expression.eval, eval_of_exact l lhs a hl ha htol.1, eval_of_exact r rhs b hr hb htol.2,
        he]
    | or =>
      obtain ⟨a, b, ha, hb, rfl⟩ := extractExpr_combineOr hf
      rw [tolerates, Bool.and_eq_true] at htol
      rw [SqlExpr.eval, Meaning.holds_reify] at he
      rw [Expression.eval, Meaning.holds_reify]
      exact Kleene.or_eq_of_imp (ihl p hl ha htol.1) (ihr p hr hb htol.2) he
    | and =>
      rw [tolerates] at htol
      rw [SqlExpr.eval, Meaning.holds_reify] at he
      -- a dropped side is tolerated only where the conjunction has to be true
      obtain ⟨ha, hb⟩ | ⟨ha, hb⟩ | ⟨a, b, ha, hb, rfl⟩ := extractExpr_combineAnd hf
      · rw [if_pos (by simp [dropped_eq hl, ha]), Bool.and_eq_true] at htol
        obtain ⟨rfl, htol⟩ := htol
        exact ihr true hr hb htol (Kleene.and_eq_true.mp he).2
      · rw [if_neg (by simp [dropped_eq hl, ha]), if_pos (by simp [dropped_eq hr, hb]),
          Bool.and_eq_true] at htol
        obtain ⟨rfl, htol⟩ := htol
        exact ihl true hl ha htol (Kleene.and_eq_true.mp he).1
      · rw [if_neg (by simp [dropped_eq hl, ha]), if_neg (by simp [dropped_eq hr, hb]),
          Bool.and_eq_true] at htol
        rw [Expression.eval, Meaning.holds_reify]
        exact Kleene.and_eq_of_imp (ihl p hl ha htol.1) (ihr p hr hb htol.2) he

/-! ## Predicates -/

/-- The filter is true on every row on which the predicate is, for every meaning of the
sub-expressions that are not supported. -/
def Sound (nums : Numbers F) (e : SqlExpr) (filter : Expression F) : Prop :=
  ∀ (R V : Type) (M : Meaning F R V) (row : R),
    M.holds (e.eval nums M row) = some true → M.holds (filter.eval nums M row) = some true

/-- **When the translation is sound**: a filter keeps every matching row if no conjunction of the
predicate loses a side under an odd number of negations or in an operand of a comparison or of `IN`,
and no number is rounded. -/
theorem parsePredicateWithSchema_sound {parse : String → Except String SqlExpr} {predicate : String}
    {e : SqlExpr} {filter : Expression F} (hparse : parse predicate = .ok e)
    (hfilter : parsePredicateWithSchema nums parse predicate schema = .ok (some filter))
    (htol : tolerates nums schema true e = true) : Sound nums e filter := by
  intro R V M row he
  simp only [parsePredicateWithSchema] at hfilter
  split_ifs at hfilter
  rw [hparse, ok_bind, bind_eq_ok] at hfilter
  obtain ⟨out, hconv, hout⟩ := hfilter
  exact holds_of_tolerates e true hconv (pure_eq_ok_iff.mp hout) htol he

/-- One number, and no floats. -/
def plainNumbers : Numbers Unit where
  parseI64 s := if s = "1" then some 1 else none
  parseF64 _ := none
  neg := id
  fractIsZero _ := true
  decimal s := if s = "1" then some 1 else none
  ofFloat _ := none
  decimal_of_parseI64 s i h := by
    split_ifs at h ⊢
    cases h
    rfl
  ofFloat_neg _ := rfl

/-- `a > 1 AND f(b)` -/
def greaterAndCall : SqlExpr :=
  .binaryOp (.binaryOp (.identifier "a") (.cmp .gt) (.value (.number "1"))) .and (.unsupported 0)

/-- Dropping the call from `a > 1 AND f(b)`. -/
theorem parsePredicateWithSchema_sound_and :
    Sound plainNumbers greaterAndCall (.cmp .gt (.getItem "a") (.lit (.int 1))) := by
  have hfilter : parsePredicateWithSchema plainNumbers (fun _ => .ok greaterAndCall)
      "a > 1 AND f(b)" [("a", .int)] = .ok (some (.cmp .gt (.getItem "a") (.lit (.int 1)))) := rfl
  exact parsePredicateWithSchema_sound rfl hfilter rfl

/-- Numbers as values, on rows in which every column is 2 and every call is false. -/
def twos : Meaning Unit Unit ℚ where
  ofBool b := if b then 1 else 0
  truth v := some (v ≠ 0)
  truth_ofBool b := by cases b <;> rfl
  column _ _ := some 2
  number q := q
  special _ := 0
  text _ := 0
  compare
    | .gt, v, w => some (v > w)
    | _, _, _ => none
  unsupported _ _ := some 0

/-- Dropping the call from `NOT (a > 1 AND f(b))` gives `NOT a > 1`, which is false on a row with
`a = 2` on which `f(b)` is false. -/
theorem parsePredicateWithSchema_not_and : parsePredicateWithSchema plainNumbers
        (fun _ => .ok (.unaryOp .not (.nested greaterAndCall))) "NOT (a > 1 AND f(b))"
        [("a", .int)] = .ok (some (.not (.cmp .gt (.getItem "a") (.lit (.int 1))))) ∧
      ¬ Sound plainNumbers (.unaryOp .not (.nested greaterAndCall))
        (.not (.cmp .gt (.getItem "a") (.lit (.int 1)))) := by
  refine ⟨rfl, fun h => ?_⟩
  have hfilter := h Unit ℚ twos () (by decide)
  revert hfilter
  decide

end MilvusStorage.Predicate
