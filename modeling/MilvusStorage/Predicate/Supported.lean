import MilvusStorage.Foundations.Except
import MilvusStorage.Predicate.Convert

/-!
# The expressions the translation supports

Whether the translation keeps an expression does not depend on the filter it builds. The `kind` of
an expression says what is known of it: a column or a literal with its type, or some other
expression. An expression has no kind if it is not supported, and then the translation drops it
(`kind_of_convertExpr`).
-/

namespace MilvusStorage.Predicate

open Except

variable {F : Type} (nums : Numbers F) (schema : List (String × ColumnType))

/-- What is known of a supported expression. -/
inductive Kind
  | expr
  | col (ty : ColumnType)
  | lit (ty : LitType)

def Out.kind : Out F → Option Kind
  | .ok _ => some .expr
  | .okCol _ ty => some (.col ty)
  | .okLit _ ty => some (.lit ty)
  | .drop => none

/-- The kind of a literal. -/
def litKind (l : Option (Literal F)) : Option Kind := l.map fun l => .lit (nums.litType l)

/-- Only numbers have a minus sign. -/
def minusKind : SqlExpr → Option Kind
  | .value (.number s) => litKind nums (nums.negLiteral s)
  | _ => none

/-- Columns and literals are only compared at types that agree. -/
def cmpKind : Option Kind → Option Kind → Option Kind
  | some (.col colTy), some (.lit litTy) => if typeCompatible colTy litTy then some .expr else none
  | some (.lit litTy), some (.col colTy) => if typeCompatible colTy litTy then some .expr else none
  | some (.col a), some (.col b) => if columnToColumnCompat a b then some .expr else none
  | some _, some _ => some .expr
  | _, _ => none

/-- The type of the target of an `IN` list; a literal cannot be one. -/
def targetType : Option Kind → Option (Option ColumnType)
  | some (.col ty) => some (some ty)
  | some .expr => some none
  | some (.lit _) => none
  | none => none

/-- An item of this kind can be compared with the target of an `IN` list. -/
def itemSupported (ty : Option ColumnType) : Option Kind → Bool
  | some (.lit litTy) => ty.all fun colTy => typeCompatible colTy litTy
  | some _ => true
  | none => false

mutual

/-- The kind of an expression, if it is supported. -/
def kind : SqlExpr → Option Kind
  | .identifier name =>
    some (.col (if schema = [] then .unchecked else (columnType schema name).getD .other))
  | .value v => litKind nums (valueLiteral nums v)
  | .unaryOp op operand =>
    match op with
    | .not => (kind operand).map fun _ => .expr
    | .minus => minusKind nums operand
    | .other _ => none
  | .binaryOp left op right =>
    match op with
    | .and => if (kind left).isSome || (kind right).isSome then some .expr else none
    | .or => if (kind left).isSome && (kind right).isSome then some .expr else none
    | .cmp _ => cmpKind (kind left) (kind right)
    | .other _ => none
  | .nested inner => kind inner
  | .inList target list _ => (targetType (kind target)).bind fun ty =>
    if !list.isEmpty && itemsSupported ty list then some .expr else none
  | .unsupported _ => none

/-- Every item can be compared with the target of an `IN` list. -/
def itemsSupported (ty : Option ColumnType) : List SqlExpr → Bool
  | [] => true
  | item :: list => itemSupported ty (kind item) && itemsSupported ty list

end

/-! ## Induction on expressions -/

/-- Induction over expressions, with the items of an `IN` list. -/
theorem SqlExpr.ind {P : SqlExpr → Prop} (identifier : ∀ name, P (.identifier name))
    (value : ∀ v, P (.value v)) (unaryOp : ∀ op e, P e → P (.unaryOp op e))
    (binaryOp : ∀ l op r, P l → P r → P (.binaryOp l op r)) (nested : ∀ e, P e → P (.nested e))
    (inList : ∀ target list negated, P target → (∀ e ∈ list, P e) → P (.inList target list negated))
    (unsupported : ∀ id, P (.unsupported id)) (e : SqlExpr) : P e :=
  @SqlExpr.rec P (fun list => ∀ e ∈ list, P e) identifier value unaryOp binaryOp nested inList
    unsupported (fun _ h => by simp at h)
    (fun item list hitem hlist e he => (List.mem_cons.mp he).elim (fun h => h ▸ hitem) (hlist e)) e

variable {nums schema}

/-! ## Inversion of the translation -/

theorem convertExpr_not {e : SqlExpr} {out : Out F}
    (h : convertExpr nums schema (.unaryOp .not e) = .ok out) :
    ∃ inner, convertExpr nums schema e = .ok inner ∧ out = combineNot inner := by
  rw [convertExpr, bind_eq_ok] at h
  obtain ⟨inner, hinner, hout⟩ := h
  exact ⟨inner, hinner, (pure_eq_ok_iff.mp hout).symm⟩

/-- What the translation makes of the two sides of a binary operator. -/
def combine : BinaryOperator → Out F → Out F → Out F
  | .and => combineAnd
  | .or => combineOr
  | .cmp op => combineCmp op
  | .other _ => fun _ _ => .drop

theorem convertExpr_binaryOp {l r : SqlExpr} {op : BinaryOperator} {out : Out F}
    (h : convertExpr nums schema (.binaryOp l op r) = .ok out) :
    ∃ lhs rhs, convertExpr nums schema l = .ok lhs ∧ convertExpr nums schema r = .ok rhs ∧
      out = combine op lhs rhs := by
  rw [convertExpr, bind_eq_ok] at h
  obtain ⟨lhs, hl, h⟩ := h
  rw [bind_eq_ok] at h
  obtain ⟨rhs, hr, h⟩ := h
  refine ⟨lhs, rhs, hl, hr, ?_⟩
  cases op <;> exact (pure_eq_ok_iff.mp h).symm

/-! ## The kinds of translated expressions -/

theorem isSome_extractExpr (out : Out F) : (extractExpr out).isSome = out.kind.isSome := by
  cases out <;> rfl

theorem kind_litOut (l : Option (Literal F)) : (litOut nums l).kind = litKind nums l := by
  cases l <;> rfl

theorem kind_convertMinus (e : SqlExpr) : (convertMinus nums e).kind = minusKind nums e := by
  cases e with
  | value v =>
    cases v with
    | number s => exact kind_litOut _
    | _ => rfl
  | _ => rfl

theorem kind_combineNot (inner : Out F) :
    (combineNot inner).kind = inner.kind.map fun _ => .expr := by
  cases inner <;> rfl

theorem kind_combineAnd (lhs rhs : Out F) : (combineAnd lhs rhs).kind =
    if lhs.kind.isSome || rhs.kind.isSome then some .expr else none := by
  cases lhs <;> cases rhs <;> rfl

theorem kind_combineOr (lhs rhs : Out F) : (combineOr lhs rhs).kind =
    if lhs.kind.isSome && rhs.kind.isSome then some .expr else none := by
  cases lhs <;> cases rhs <;> rfl

theorem kind_combineCmp (op : Comparison) (lhs rhs : Out F) :
    (combineCmp op lhs rhs).kind = cmpKind lhs.kind rhs.kind := by
  rw [combineCmp, apply_ite Out.kind]
  cases lhs <;> cases rhs <;> rfl

theorem isSome_itemExpr (ty : Option ColumnType) (out : Out F) :
    (itemExpr ty out).isSome = itemSupported ty out.kind := by
  cases out with
  | okLit e litTy =>
    cases ty with
    | none => rfl
    | some colTy =>
      cases h : typeCompatible colTy litTy <;> simp [itemExpr, itemSupported, Out.kind, h]
  | _ => rfl

/-- The items of an `IN` list, after some of them. -/
theorem isSome_convertItems {target : Expression F} {ty : Option ColumnType} {list : List SqlExpr}
    (hlist : ∀ e ∈ list, ∀ out : Out F, convertExpr nums schema e = .ok out →
      kind nums schema e = out.kind)
    {acc r : Option (Expression F)} (hconv : convertItems nums schema target ty acc list = .ok r) :
    r.isSome = ((acc.isSome || !list.isEmpty) && itemsSupported nums schema ty list) := by
  induction list generalizing acc with
  | nil =>
    cases hconv
    simp [itemsSupported]
  | cons item list ih =>
    rw [convertItems, bind_eq_ok] at hconv
    obtain ⟨out, hout, hconv⟩ := hconv
    have hitem := isSome_itemExpr ty out
    rw [itemsSupported, hlist item List.mem_cons_self out hout, ← hitem]
    cases he : itemExpr ty out with
    | none =>
      rw [he] at hconv
      cases hconv
      simp
    | some e =>
      rw [he] at hconv
      rw [ih (fun e' he' => hlist e' (List.mem_cons_of_mem _ he')) hconv]
      simp

theorem kind_finishInList (negated : Bool) (r : Option (Expression F)) :
    (finishInList negated r).kind = if r.isSome then some .expr else none := by
  cases r <;> rfl

/-- **Supported expressions** are those the translation keeps. -/
theorem kind_of_convertExpr (e : SqlExpr) :
    ∀ out : Out F, convertExpr nums schema e = .ok out → kind nums schema e = out.kind := by
  induction e using SqlExpr.ind with
  | identifier name =>
    intro out hconv
    rw [convertExpr] at hconv
    simp only [convertIdentifier] at hconv
    rw [kind]
    split_ifs at hconv ⊢ with hs
    · cases hconv
      rfl
    · split at hconv
      · next ty hty =>
        cases hconv
        rw [hty]
        rfl
      · cases hconv
  | value v =>
    intro out hconv
    cases hconv
    rw [kind, convertValue, kind_litOut]
  | unaryOp op e ih =>
    intro out hconv
    cases op with
    | not =>
      obtain ⟨inner, hinner, rfl⟩ := convertExpr_not hconv
      rw [kind, ih inner hinner, kind_combineNot]
    | minus =>
      cases hconv
      rw [kind, kind_convertMinus]
    | other id =>
      cases hconv
      rw [kind, Out.kind]
  | binaryOp l op r ihl ihr =>
    intro out hconv
    obtain ⟨lhs, rhs, hl, hr, rfl⟩ := convertExpr_binaryOp hconv
    cases op with
    | and => rw [kind, ihl lhs hl, ihr rhs hr, combine, kind_combineAnd]
    | or => rw [kind, ihl lhs hl, ihr rhs hr, combine, kind_combineOr]
    | cmp op => rw [kind, ihl lhs hl, ihr rhs hr, combine, kind_combineCmp]
    | other id => rw [kind, combine, Out.kind]
  | nested e ih =>
    intro out hconv
    rw [kind, ih out hconv]
  | inList target list negated iht ihl =>
    intro out hconv
    rw [convertExpr, bind_eq_ok] at hconv
    obtain ⟨tout, ht, hconv⟩ := hconv
    rw [kind, iht tout ht]
    cases tout with
    | okCol t ty | ok t =>
      rw [bind_eq_ok] at hconv
      obtain ⟨r, hr, hout⟩ := hconv
      cases hout
      rw [kind_finishInList, isSome_convertItems ihl hr]
      rfl
    | okLit t ty | drop =>
      cases hconv
      rfl
  | unsupported id =>
    intro out hconv
    cases hconv
    rw [kind, Out.kind]

end MilvusStorage.Predicate
