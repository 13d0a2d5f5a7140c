import Analizador.Text.Layout
import Analizador.Workshop

/-! # Assembling nodes

The rules that build nodes from the parts of a phrase. A rule takes its parts as arguments, whatever
they are, and logs what it builds. -/

namespace Analizador

namespace Assembly

/-- The signs of the comparisons. -/
def comparisonSigns : List String := ["==", "!=", ">", "<", ">=", "<="]

/-- Whether a datum is the sign of a comparison. -/
def isComparison (d : Datum) : Bool := comparisonSigns.any d.isText

/-- The value of a datum that has one, else the datum itself. -/
def valueOr (d : Datum) : Work Datum := do return (← Work.attr? d "value").getD d

/-- The value of a datum that has one, else its text. -/
def valueOrText (d : Datum) : Work Datum := do
  match ← Work.attr? d "value" with
  | some value => return value
  | none => return .ofText (← d.render)

/-- Folds pairs of an operator and an operand into operations, from the left; an operator without an
operand is dropped. -/
def chain (combine : Datum → Datum → Datum → Work Datum) (result : Datum) : List Datum → Work Datum
  | op :: right :: rest => do chain combine (← combine result op right) rest
  | _ => return result

/-- An operation of a logical chain. -/
def logicalLink (left op right : Datum) : Work Datum := do
  Work.makeBinary (← valueOr op) left right

/-- An operation of a chain of comparisons. -/
def relationalLink (left op right : Datum) : Work Datum := do
  let op ← valueOr op
  Work.sayText do return s!"Creando BinaryOpNode: {← left.render} {← op.render} {← right.render}"
  let node ← Work.makeBinary op left right
  if isComparison op then Work.setAttr node "type" (.ofText Ty.bool.name)
  return node

/-- An operation of a chain of sums or of products. `rule` names the chain, and `titles` says which
operators are announced. -/
def arithmeticLink (rule : String) (titles : List (String × String)) (left op right : Datum) :
    Work Datum := do
  let op ← valueOrText op
  Work.sayText do return s!"DEBUG - Operador en {rule}: '{← op.render}' - Tipo: {op.kindShown}"
  let node ← Work.makeBinary op left right
  match titles.find? (fun (sign, _) => op.isText sign) with
  | some (sign, title) =>
    Work.sayText do
      return s!"DEBUG - Creando operación de {title}: {← left.render} {sign} {← right.render}"
  | none => pure ()
  return node

/-- The name of a datum that has one, else the datum itself. -/
def nameOr (d : Datum) : Work Datum := do return (← Work.attr? d "name").getD d

/-- A comparison or a chain of them. Two parts of which the second has a name are compared by `>`.
-/
def comparison (first : Datum) (rest : List Datum) : Work Datum := do
  Work.sayText do
    return s!"DEBUG expr_relacional: expr={← first.render}, args={← Datum.argumentRow rest}"
  match rest with
  | [second] =>
    if ← Work.hasAttr second "name" then
      let left ← nameOr first
      let right ← nameOr second
      Work.sayText do
        return s!"Caso especial: creando BinaryOpNode para comparación de {← left.render} > " ++
          s!"{← right.render}"
      let node ← Work.makeBinary (.ofText ">") first second
      Work.setAttr node "type" (.ofText Ty.bool.name)
      return node
    else return first
  | rest => chain relationalLink first rest

/-- An operation that is logged before it is built. -/
def announced (title sign : String) (op : String) (left right : Datum) : Work Datum := do
  Work.sayText do
    return s!"DEBUG - Creando {title} explícita: {← left.render} {sign} {← right.render}"
  Work.makeBinary (.ofText op) left right

/-- A comparison node. -/
def compared (op : String) (left right : Datum) : Work Datum := do
  let node ← Work.makeBinary (.ofText op) left right
  Work.setAttr node "type" (.ofText Ty.bool.name)
  return node

/-- The operator of a sum. -/
def sumOperator (op : Datum) : Work Datum := do
  match op with
  | .none => return .ofText "+"
  | op =>
    let result ← valueOrText op
    Work.sayText do
      return s!"DEBUG - Operador extraído: '{← result.render}' - Tipo: {op.kindShown}"
    return result

/-- The operator of a product when nothing better is found. -/
def fallbackProduct : Work Datum := do
  Work.say "DEBUG - No se pudo extraer operador, usando '*' por defecto"
  return .ofText "*"

/-- Whether a label speaks of division. -/
def speaksOfDivision (label : String) : Bool :=
  Text.occurs "div".toList label.toList

/-- The operator of a product. -/
def productOperator (op : Datum) : Work Datum := do
  Work.sayText do return s!"DEBUG - Procesando operador_mult: {← op.render}"
  match op with
  | .none =>
    Work.say "DEBUG - No se proporcionó operador, usando '*' por defecto"
    return .ofText "*"
  | .tree label children =>
    let inner ← match children with
      | child :: _ => Work.attr? child "value"
      | [] => pure none
    match inner with
    | some value =>
      Work.sayText do return s!"DEBUG - Extrayendo valor del hijo del Tree: {← value.render}"
      return value
    | none =>
      Work.say s!"DEBUG - Usando data del Tree: {label}"
      if label = "operador_mult" then return .ofText "*"
      else if speaksOfDivision label then return .ofText "/"
      else fallbackProduct
  | op =>
    match ← Work.attr? op "value" with
    | some value =>
      if value.isText "/" then
        Work.sayText do
          return s!"DEBUG - Encontrado operador de división explícito: {← value.render}"
        return .ofText "/"
      else return value
    | none =>
      match op with
      | .constant (.text s) =>
        if s = "/" then Work.say s!"DEBUG - Encontrado operador de división como cadena: {s}"
        return .ofText s
      | _ => fallbackProduct

/-- A datum read as an integer. -/
def readInteger (d : Datum) : Except Failure Int :=
  match d with
  | .constant (.integer n) => .ok n
  | .constant (.truth b) => .ok (if b then 1 else 0)
  | .constant (.text s) | .token _ s _ _ => Numeral.readInteger s
  | .constant (.decimal x) => do
    match ← (Constant.decimal x).truncate with
    | .integer n => return n
    | c => throw (.notNumeric "int" c.kind)
  | d => .error (.notNumeric "int" d.kind)

/-- A datum read as a double. -/
def readDecimal (d : Datum) : Except Failure Double :=
  match d with
  | .constant (.decimal x) => .ok x
  | .constant (.integer n) => Constant.toDouble n
  | .constant (.truth b) => Constant.toDouble (if b then 1 else 0)
  | .constant (.text s) | .token _ s _ _ => Numeral.readDecimal s
  | d => .error (.notNumeric "float" d.kind)

/-- What is left of a datum without its first and last item. -/
def peeled (d : Datum) : Except Failure Datum :=
  match d with
  | .constant (.text s) | .token _ s _ _ => .ok (.ofText (String.ofList (s.toList.drop 1).dropLast))
  | .list items => .ok (.list (items.drop 1).dropLast)
  | d => .error (.notSliceable d.kind)

/-- A node with the place of the datum it is read from. -/
def placed (cls : NodeClass) (slot : String) (value : Datum) (source : Datum) : Work Datum := do
  let line ← Work.attr source "line"
  let column ← Work.attr source "column"
  Work.push (← cls.make (fun name => if name = slot then value else .none) line column)

/-- A node of a name. -/
def namedNode (cls : NodeClass) (source : Datum) : Work Datum := do
  placed cls "name" (← Work.attr source "value") source

/-- A list of identifiers; parts of other classes are passed over. -/
def identifierList (parts : List Datum) : Work Datum := do
  let node ← Work.make .identifierList []
  for part in parts do
    match part with
    | .node .identifier _ =>
      let name ← Work.attr part "name"
      match ← Work.attr node "identifiers" with
      | .list old => Work.setAttr node "identifiers" (.list (old ++ [name]))
      | _ => pure ()
      Work.addChild node part
    | _ => pure ()
  return node

/-- A program; parts that count as false are passed over. -/
def program (parts : List Datum) : Work Datum := do
  let node ← Work.make .program []
  for part in parts do
    if part.isTrue then Work.addChild node part
  return node

/-- A declaration. -/
def declaration (ty list : Datum) : Work Datum := do
  let node ← Work.make .declaration [("var_type", ty)]
  Work.addChild node list
  return node

/-- What a rule takes: the names of the arguments it needs, how many more it may take, or any
number. -/
structure Signature where
  needed : List String
  optional : Option Nat

/-- The signatures of the rules. -/
def signature? : String → Option Signature
  | "start" => some ⟨["programa"], some 0⟩
  | "programa" | "identificador_lista" | "bloque" => some ⟨[], none⟩
  | "declaracion" => some ⟨["tipo", "identificador_lista"], some 0⟩
  | "tipo_entero" | "tipo_decimal" | "tipo_cadena" => some ⟨[], some 0⟩
  | "expr_suma" | "expr_resta" | "expr_mult" | "expr_division" => some ⟨["left", "right"], some 0⟩
  | "op_igual" | "op_distinto" | "op_mayor" | "op_menor" | "op_mayor_igual" | "op_menor_igual" =>
    some ⟨["left", "right"], some 0⟩
  | "identificador" => some ⟨["id_token"], some 0⟩
  | "asignacion" => some ⟨["variable", "expresion"], some 0⟩
  | "condicional" => some ⟨["condicion", "bloque_if"], some 1⟩
  | "bucle_mientras" => some ⟨["condicion", "bloque"], some 0⟩
  | "bucle_repetir" => some ⟨["count", "bloque"], some 0⟩
  | "impresion" | "expresion" => some ⟨["expr"], some 0⟩
  | "entrada" => some ⟨["variable"], some 0⟩
  | "expr_logica" | "expr_relacional" => some ⟨["expr"], none⟩
  | "expr_aritmetica" => some ⟨["term"], none⟩
  | "termino" => some ⟨["factor"], none⟩
  | "factor" => some ⟨["value"], some 0⟩
  | "operador_logico" | "operador_relacional" | "operador_suma" => some ⟨["op"], some 0⟩
  | "operador_mult" => some ⟨[], some 1⟩
  | "variable" => some ⟨["var_token"], some 0⟩
  | "entero" | "decimal" => some ⟨["num_token"], some 0⟩
  | "string" => some ⟨["str_token"], some 0⟩
  | _ => none

/-- Refuses too few or too many arguments. -/
def Signature.check (s : Signature) (rule : String) (given : Nat) : Except Failure Unit :=
  if given < s.needed.length then .error (.missingArguments rule (s.needed.drop given))
  else match s.optional with
    | some more =>
      if s.needed.length + more < given then
        .error (.extraArguments rule (s.needed.length + 1) (s.needed.length + more + 1) (given + 1))
      else .ok ()
    | none => .ok ()

/-- Applies a rule to arguments of the right number. -/
def applyRule (rule : String) (args : List Datum) : Work Datum :=
  match rule, args with
  | "start", [part] | "factor", [part] | "expresion", [part] => return part
  | "programa", parts => program parts
  | "declaracion", [ty, list] => declaration ty list
  | "tipo_entero", [] => return .ofText Ty.ent.name
  | "tipo_decimal", [] => return .ofText Ty.dec.name
  | "tipo_cadena", [] => return .ofText Ty.cadena.name
  | "identificador_lista", parts => identifierList parts
  | "expr_suma", [left, right] => announced "SUMA" "+" "+" left right
  | "expr_resta", [left, right] => announced "RESTA" "-" "-" left right
  | "expr_mult", [left, right] => announced "multi" "+" "*" left right
  | "expr_division", [left, right] => announced "division" "-" "/" left right
  | "op_igual", [left, right] => compared "==" left right
  | "op_distinto", [left, right] => compared "!=" left right
  | "op_mayor", [left, right] => compared ">" left right
  | "op_menor", [left, right] => compared "<" left right
  | "op_mayor_igual", [left, right] => compared ">=" left right
  | "op_menor_igual", [left, right] => compared "<=" left right
  | "identificador", [source] => namedNode .identifier source
  | "variable", [source] => namedNode .variableUse source
  | "asignacion", [target, value] =>
    Work.make .assignment [("identifier", target), ("expression", value)]
  | "condicional", [condition, body] =>
    Work.make .conditional [("condition", condition), ("if_body", body)]
  | "condicional", [condition, body, other] =>
    Work.make .conditional [("condition", condition), ("if_body", body), ("else_body", other)]
  | "bucle_mientras", [condition, body] =>
    Work.make .whileLoop [("condition", condition), ("body", body)]
  | "bucle_repetir", [count, body] => Work.make .repeatLoop [("count", count), ("body", body)]
  | "impresion", [value] => Work.make .print [("expression", value)]
  | "entrada", [target] => Work.make .input [("variable", target)]
  | "bloque", parts => Work.make .block [("statements", .list (parts.filter (·.isTrue)))]
  | "expr_logica", first :: rest => chain logicalLink first rest
  | "expr_relacional", first :: rest => comparison first rest
  | "expr_aritmetica", first :: rest =>
    chain (arithmeticLink "expr_aritmetica" [("-", "RESTA"), ("+", "SUMA")]) first rest
  | "termino", first :: rest =>
    chain (arithmeticLink "termino" [("*", "MULTIPLICACIÓN"), ("/", "DIVISIÓN")]) first rest
  | "operador_logico", [op] | "operador_relacional", [op] => valueOrText op
  | "operador_suma", [op] => sumOperator op
  | "operador_mult", [op] => productOperator op
  | "operador_mult", [] => productOperator .none
  | "entero", [source] => do
    placed .number "value" (.ofInt (← readInteger (← Work.attr source "value"))) source
  | "decimal", [source] => do
    placed .number "value"
      (.constant (.decimal (← readDecimal (← Work.attr source "value")))) source
  | "string", [source] => do
    placed .text "value" (← peeled (← Work.attr source "value")) source
  | rule, _ => throw (.unknownRule rule)

/-- Calls a rule by name. -/
def call (rule : String) (args : List Datum) : Work Datum := do
  match signature? rule with
  | none => throw (.unknownRule rule)
  | some s =>
    s.check rule args.length
    applyRule rule args

/-- Calls a rule while a tree is being transformed; a failure names the rule. -/
def callNamed (rule : String) (args : List Datum) : Work Datum :=
  tryCatch (call rule args) fun f => throw (.ruleFailed rule f.message)

/-- Replaces a transformed tree by what its rule builds; a tree without a rule stays. -/
def replace (label : String) (children : List Datum) : Work Datum :=
  match signature? label with
  | some _ => callNamed label children
  | none => return .tree label children

mutual

/-- Transforms a datum from the bottom up. -/
def transform : Datum → Work Datum
  | .tree label children => do replace label (← transformAll children)
  | .token kind text line column =>
    match signature? kind with
    | some _ => callNamed kind [.token kind text line column]
    | none => return .token kind text line column
  | d => return d

/-- Transforms data one after the other. -/
def transformAll : List Datum → Work (List Datum)
  | [] => return []
  | d :: ds => do
    let d ← transform d
    return d :: (← transformAll ds)

end

end Assembly

end Analizador
