import Mathlib.Data.List.Basic
import Mathlib.Data.Rat.Defs

/-!
# From SQL predicates to filters

`parse_predicate_with_schema` translates a parsed SQL predicate into a filter expression that a file
scan evaluates. What it cannot translate it drops: a conjunction keeps the side that could be
translated, and any other construct with a dropped part is dropped as a whole.

Numbers come from the literal's text, as an `i64` if it is one and as an `f64` otherwise, which may
round it. The two parsers, the numbers that texts and floats stand for and what the translation asks
of an `f64` are parameters (`Numbers`); the tokenizer and the SQL parser are one, too.
-/

namespace MilvusStorage.Predicate

inductive ColumnType
  | int
  | uint
  | float
  | utf8
  | bool
  | other
  /-- Without a schema, literals are not checked against columns. -/
  | unchecked
  deriving DecidableEq, Repr

inductive LitType
  | int
  | float
  /-- A float without fractional part. -/
  | intFloat
  | utf8
  | bool
  deriving DecidableEq, Repr

/-! ## Syntax -/

/-- SQL literals. -/
inductive Value
  | number (s : String)
  | singleQuotedString (s : String)
  | doubleQuotedString (s : String)
  | boolean (b : Bool)
  | null
  /-- Any other literal. -/
  | other (id : ℕ)
  deriving DecidableEq, Repr

inductive UnaryOperator
  | not
  | minus
  | other (id : ℕ)
  deriving DecidableEq, Repr

inductive Comparison
  | eq
  | notEq
  | gt
  | gtEq
  | lt
  | ltEq
  deriving DecidableEq, Repr

inductive BinaryOperator
  | and
  | or
  | cmp (op : Comparison)
  | other (id : ℕ)
  deriving DecidableEq, Repr

/-- SQL expressions. -/
inductive SqlExpr
  | identifier (name : String)
  | value (v : Value)
  | unaryOp (op : UnaryOperator) (operand : SqlExpr)
  | binaryOp (left : SqlExpr) (op : BinaryOperator) (right : SqlExpr)
  | nested (inner : SqlExpr)
  | inList (target : SqlExpr) (list : List SqlExpr) (negated : Bool)
  /-- A function call, or any other expression. -/
  | unsupported (id : ℕ)

/-- Literals of a filter. -/
inductive Literal (F : Type)
  | int (i : ℤ)
  | float (f : F)
  | utf8 (s : String)
  | bool (b : Bool)

/-- Filter expressions. -/
inductive Expression (F : Type)
  | getItem (name : String)
  | lit (l : Literal F)
  | not (e : Expression F)
  | and (l r : Expression F)
  | or (l r : Expression F)
  | cmp (op : Comparison) (l r : Expression F)

/-- The result of translating an expression, with what is known about its type. -/
inductive Out (F : Type)
  | ok (e : Expression F)
  | okCol (e : Expression F) (colTy : ColumnType)
  | okLit (e : Expression F) (litTy : LitType)
  | drop

def extractExpr {F : Type} : Out F → Option (Expression F)
  | .ok e => some e
  | .okCol e _ => some e
  | .okLit e _ => some e
  | .drop => none

def typeCompatible : ColumnType → LitType → Bool
  | .unchecked, _ => true
  | .int, .int => true
  | .int, .intFloat => true
  | .uint, .int => true
  | .uint, .intFloat => true
  | .float, .int => true
  | .float, .float => true
  | .float, .intFloat => true
  | .utf8, .utf8 => true
  | .bool, .bool => true
  | _, _ => false

def columnToColumnCompat (a b : ColumnType) : Bool :=
  if a = b then true
  else if a = .unchecked || b = .unchecked then true
  else match a, b with
    | .int, .uint => true
    | .uint, .int => true
    | .int, .float => true
    | .float, .int => true
    | .uint, .float => true
    | .float, .uint => true
    | _, _ => false

/-! ## Literals -/

/-- How the texts of numbers are read, and what they stand for. -/
structure Numbers (F : Type) where
  parseI64 : String → Option ℤ
  parseF64 : String → Option F
  neg : F → F
  /-- `f.fract() == 0.0` -/
  fractIsZero : F → Bool
  /-- The number that a text stands for. -/
  decimal : String → Option ℚ
  /-- The number that a float stands for, if it is finite. -/
  ofFloat : F → Option ℚ
  decimal_of_parseI64 : ∀ s i, parseI64 s = some i → decimal s = some (i : ℚ)
  ofFloat_neg : ∀ f, ofFloat (neg f) = (ofFloat f).map (-·)

variable {F : Type} (nums : Numbers F)

/-- The literal a number denotes. -/
def Numbers.literal (s : String) : Option (Literal F) :=
  match nums.parseI64 s with
  | some i => some (.int i)
  | none => (nums.parseF64 s).map .float

/-- The literal a number after a minus sign denotes. -/
def Numbers.negLiteral (s : String) : Option (Literal F) :=
  match nums.parseI64 s with
  | some i => some (.int (-i))
  | none => (nums.parseF64 s).map fun f => .float (nums.neg f)

def Numbers.litType : Literal F → LitType
  | .int _ => .int
  | .float f => if nums.fractIsZero f then .intFloat else .float
  | .utf8 _ => .utf8
  | .bool _ => .bool

/-- The translation of a literal, if it has one. -/
def litOut (l : Option (Literal F)) : Out F :=
  match l with
  | some l => .okLit (.lit l) (nums.litType l)
  | none => .drop

/-- The literal a SQL literal denotes, if the translation knows it. -/
def valueLiteral : Value → Option (Literal F)
  | .number s => nums.literal s
  | .singleQuotedString s => some (.utf8 s)
  | .doubleQuotedString s => some (.utf8 s)
  | .boolean b => some (.bool b)
  | .null => none
  | .other _ => none

def convertValue (v : Value) : Out F := litOut nums (valueLiteral nums v)

def convertNegativeValue : Value → Out F
  | .number s => litOut nums (nums.negLiteral s)
  | _ => .drop

/-- Only a literal can be negated. -/
def convertMinus : SqlExpr → Out F
  | .value v => convertNegativeValue nums v
  | _ => .drop

/-! ## Connectives -/

def combineAnd (lhs rhs : Out F) : Out F :=
  match extractExpr lhs, extractExpr rhs with
  | some l, some r => .ok (.and l r)
  | some l, none => .ok l
  | none, some r => .ok r
  | none, none => .drop

def combineOr (lhs rhs : Out F) : Out F :=
  match extractExpr lhs, extractExpr rhs with
  | some l, some r => .ok (.or l r)
  | _, _ => .drop

def cmpTypeOk : Out F → Out F → Bool
  | .okCol _ colTy, .okLit _ litTy => typeCompatible colTy litTy
  | .okLit _ litTy, .okCol _ colTy => typeCompatible colTy litTy
  | .okCol _ a, .okCol _ b => columnToColumnCompat a b
  | _, _ => true

def combineCmp (op : Comparison) (lhs rhs : Out F) : Out F :=
  if cmpTypeOk lhs rhs then
    match extractExpr lhs, extractExpr rhs with
    | some l, some r => .ok (.cmp op l r)
    | _, _ => .drop
  else .drop

def combineNot (inner : Out F) : Out F :=
  match extractExpr inner with
  | some e => .ok (.not e)
  | none => .drop

/-! ## Expressions -/

/-- The column types by name; a name that is listed again takes the later type. -/
def columnType (schema : List (String × ColumnType)) (name : String) : Option ColumnType :=
  schema.reverse.lookup name

def convertIdentifier (schema : List (String × ColumnType)) (name : String) :
    Except String (Out F) :=
  if schema = [] then .ok (.okCol (.getItem name) .unchecked)
  else match columnType schema name with
    | some ty => .ok (.okCol (.getItem name) ty)
    | none => .error s!"unknown column: {name}"

/-- The comparison of the target of an `IN` list with a translated item, unless the item is dropped
or of the wrong type. -/
def itemExpr (targetColTy : Option ColumnType) : Out F → Option (Expression F)
  | .okLit e litTy =>
    if targetColTy.any fun colTy => !typeCompatible colTy litTy then none else some e
  | .ok e => some e
  | .okCol e _ => some e
  | .drop => none

def appendItem (target : Expression F) (acc : Option (Expression F)) (item : Expression F) :
    Expression F :=
  match acc with
  | none => .cmp .eq target item
  | some prev => .or prev (.cmp .eq target item)

/-- The end of `convert_in_list`. -/
def finishInList (negated : Bool) : Option (Expression F) → Out F
  | none => .drop
  | some combined => .ok (if negated then .not combined else combined)

mutual

def convertExpr (schema : List (String × ColumnType)) : SqlExpr → Except String (Out F)
  | .identifier name => convertIdentifier schema name
  | .value v => .ok (convertValue nums v)
  | .unaryOp op operand =>
    match op with
    | .not => do return combineNot (← convertExpr schema operand)
    | .minus => .ok (convertMinus nums operand)
    | .other _ => .ok .drop
  | .binaryOp left op right => do
    let lhs ← convertExpr schema left
    let rhs ← convertExpr schema right
    match op with
    | .and => return combineAnd lhs rhs
    | .or => return combineOr lhs rhs
    | .cmp op => return combineCmp op lhs rhs
    | .other _ => return .drop
  | .nested inner => convertExpr schema inner
  | .inList target list negated => do
    match ← convertExpr schema target with
    | .okCol expr colTy =>
      return finishInList negated (← convertItems schema expr (some colTy) none list)
    | .ok expr => return finishInList negated (← convertItems schema expr none none list)
    | .okLit _ _ => return .drop
    | .drop => return .drop
  | .unsupported _ => .ok .drop

/-- The loop over the items of an `IN` list; without a value, the list is dropped. -/
def convertItems (schema : List (String × ColumnType)) (target : Expression F)
    (targetColTy : Option ColumnType) (acc : Option (Expression F)) :
    List SqlExpr → Except String (Option (Expression F))
  | [] => .ok acc
  | item :: list => do
    match itemExpr targetColTy (← convertExpr schema item) with
    | none => return none
    | some e => convertItems schema target targetColTy (some (appendItem target acc e)) list

end

/-- `parse_predicate_with_schema`; `parse` is the SQL parser, which refuses trailing input. -/
def parsePredicateWithSchema (parse : String → Except String SqlExpr) (predicate : String)
    (schema : List (String × ColumnType)) : Except String (Option (Expression F)) :=
  if predicate.toList.all Char.isWhitespace then .error "empty predicate"
  else do
    let sqlExpr ← parse predicate
    return extractExpr (← convertExpr nums schema sqlExpr)

end MilvusStorage.Predicate
