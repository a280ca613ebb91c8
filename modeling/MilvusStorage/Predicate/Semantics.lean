import MilvusStorage.Foundations.Kleene
import MilvusStorage.Predicate.Convert

/-!
# The meaning of predicates and filters

Both languages are evaluated on a row to a value or to null. A `Meaning` says what columns, numbers,
texts and comparisons of values are, and gives every sub-expression that the translation does not
support a value of its own. The connectives, the comparisons and `IN` follow SQL's three-valued
logic, and the operators of a filter mean the same as those of SQL. A number of a predicate is the
number that its text stands for; a float of a filter need not be that number.
-/

namespace MilvusStorage.Predicate

/-- The meaning of the parts of an expression, on rows of type `R` with values of type `V`. -/
structure Meaning (F R V : Type) where
  ofBool : Bool → V
  truth : V → Option Bool
  truth_ofBool : ∀ b, truth (ofBool b) = some b
  column : R → String → Option V
  number : ℚ → V
  /-- A float that is infinite or not a number. -/
  special : F → V
  text : String → V
  compare : Comparison → V → V → Option Bool
  /-- The value of an expression that is not supported. -/
  unsupported : R → SqlExpr → Option V

namespace Meaning

variable {F R V : Type} (M : Meaning F R V)

/-- The truth of a value; null is neither true nor false. -/
def holds (v : Option V) : Option Bool := v.bind M.truth

/-- The value of a truth value. -/
def reify (b : Option Bool) : Option V := b.map M.ofBool

@[simp] theorem holds_reify (b : Option Bool) : M.holds (M.reify b) = b := by
  cases b with
  | none => rfl
  | some b => exact M.truth_ofBool b

/-- A comparison is unknown if an operand is null. -/
def cmp (op : Comparison) (v w : Option V) : Option Bool :=
  v.bind fun v => w.bind fun w => M.compare op v w

/-- The value of a literal of a filter. -/
def literal (nums : Numbers F) : Literal F → V
  | .int i => M.number i
  | .float f => (nums.ofFloat f).elim (M.special f) M.number
  | .utf8 s => M.text s
  | .bool b => M.ofBool b

/-- `v IN (items)`. -/
def isIn (v : Option V) (items : List (Option V)) : Option Bool :=
  items.foldl (fun acc w => Kleene.or acc (M.cmp .eq v w)) (some false)

end Meaning

variable {F R V : Type} (nums : Numbers F) (M : Meaning F R V) (row : R)

def Expression.eval : Expression F → Option V
  | .getItem name => M.column row name
  | .lit l => some (M.literal nums l)
  | .not e => M.reify (Kleene.not (M.holds (e.eval)))
  | .and l r => M.reify (Kleene.and (M.holds l.eval) (M.holds r.eval))
  | .or l r => M.reify (Kleene.or (M.holds l.eval) (M.holds r.eval))
  | .cmp op l r => M.reify (M.cmp op l.eval r.eval)

/-- The value of a number, or that of an expression which is not supported. -/
def evalNumber (q : Option ℚ) (e : SqlExpr) : Option V :=
  match q with
  | some q => some (M.number q)
  | none => M.unsupported row e

def evalValue : Value → Option V
  | .null => none
  | .number s => evalNumber M row (nums.decimal s) (.value (.number s))
  | .singleQuotedString s => some (M.text s)
  | .doubleQuotedString s => some (M.text s)
  | .boolean b => some (M.ofBool b)
  | .other id => M.unsupported row (.value (.other id))

/-- A number after a minus sign is the negative number. -/
def evalMinus (e : SqlExpr) : Option V :=
  match e with
  | .value (.number s) => evalNumber M row ((nums.decimal s).map (-·)) (.unaryOp .minus e)
  | e => M.unsupported row (.unaryOp .minus e)

mutual

def SqlExpr.eval : SqlExpr → Option V
  | .identifier name => M.column row name
  | .value v => evalValue nums M row v
  | .unaryOp op operand =>
    match op with
    | .not => M.reify (Kleene.not (M.holds operand.eval))
    | .minus => evalMinus nums M row operand
    | .other id => M.unsupported row (.unaryOp (.other id) operand)
  | .binaryOp left op right =>
    match op with
    | .and => M.reify (Kleene.and (M.holds left.eval) (M.holds right.eval))
    | .or => M.reify (Kleene.or (M.holds left.eval) (M.holds right.eval))
    | .cmp op => M.reify (M.cmp op left.eval right.eval)
    | .other id => M.unsupported row (.binaryOp left (.other id) right)
  | .nested inner => inner.eval
  | .inList target list negated =>
    let found := M.isIn target.eval (SqlExpr.evalItems list)
    M.reify (if negated then Kleene.not found else found)
  | .unsupported id => M.unsupported row (.unsupported id)

def SqlExpr.evalItems : List SqlExpr → List (Option V)
  | [] => []
  | item :: list => item.eval :: SqlExpr.evalItems list

end

end MilvusStorage.Predicate
