import MerkleLog.Plan

namespace MerkleLog

/-- A JSON document. A number is an integer only if it is written without a fraction or an
exponent; any other keeps its spelling. The fields of an object keep their order. -/
inductive Json where
  | null
  | boolean (value : Bool)
  | integer (value : Int)
  | decimal (spelling : String)
  | text (value : String)
  | array (items : List Json)
  | object (fields : List (String × Json))

def Json.ofWord (w : Word) : Json :=
  .integer w.toNat

/-- The word that a document is, if it is an integer in the range of words. -/
def Json.word? : Json → Option Word
  | .integer value =>
    if 0 ≤ value ∧ value < UInt64.size then some (UInt64.ofNat value.toNat) else none
  | _ => none

/-- The level that a document is, if it is an integer in the range of bytes. -/
def Json.level? : Json → Option UInt8
  | .integer value =>
    if 0 ≤ value ∧ value < UInt8.size then some (UInt8.ofNat value.toNat) else none
  | _ => none

def Json.items? : Json → Option (List Json)
  | .array items => some items
  | _ => none

def hexEscape (c : Char) : String :=
  let digits := Nat.toDigits 16 c.toNat
  "\\u" ++ String.ofList (List.replicate (4 - digits.length) '0' ++ digits)

/-- A character inside a quoted text. Quotes, backslashes and control characters are escaped. -/
def escapeChar (c : Char) : String :=
  if c = '"' then "\\\""
  else if c = '\\' then "\\\\"
  else if c = '\n' then "\\n"
  else if c = '\r' then "\\r"
  else if c = '\t' then "\\t"
  else if c.toNat = 8 then "\\b"
  else if c.toNat = 12 then "\\f"
  else if c.toNat < 32 then hexEscape c
  else c.toString

def quote (s : String) : String :=
  "\"" ++ String.join (s.toList.map escapeChar) ++ "\""

mutual

/-- The text of a document, without blanks. -/
def Json.compact : Json → String
  | .null => "null"
  | .boolean value => if value then "true" else "false"
  | .integer value => toString value
  | .decimal spelling => spelling
  | .text value => quote value
  | .array items => "[" ++ ",".intercalate (Json.compactItems items) ++ "]"
  | .object fields => "\x7b" ++ ",".intercalate (Json.compactFields fields) ++ "\x7d"

def Json.compactItems : List Json → List String
  | [] => []
  | item :: items => item.compact :: Json.compactItems items

def Json.compactFields : List (String × Json) → List String
  | [] => []
  | (key, value) :: fields => (quote key ++ ":" ++ value.compact) :: Json.compactFields fields

end

def Node.toJson (n : Node) : Json :=
  .object [("level", .integer n.level.toNat), ("index", .ofWord n.index)]

/-- Reads a node from an object with a level and an index, whatever else it holds, or from an array
of just the two. -/
def Node.ofJson? : Json → Option Node
  | .object fields => do
    let level ← (← fields.lookup "level").level?
    let index ← (← fields.lookup "index").word?
    return ⟨level, index⟩
  | .array [level, index] => do
    return ⟨← level.level?, ← index.word?⟩
  | _ => none

def Plan.toJson (p : Plan) : Json :=
  .object [("ids", .array (p.nodes.map Node.toJson)), ("begin", .ofWord p.run.start),
    ("end", .ofWord p.run.stop)]

def Plan.text (p : Plan) : String :=
  p.toJson.compact

/-- Reads nodes and bounds, which need not fit each other. -/
def Plan.draft? (nodes start stop : Json) : Option Plan := do
  let nodes ← (← nodes.items?).mapM Node.ofJson?
  return ⟨nodes, ⟨← start.word?, ← stop.word?⟩⟩

/-- Reads a plan whose run need not fit its nodes, from an object with the three parts, whatever
else it holds, or from an array of just the three. -/
def Plan.ofJson? : Json → Option Plan
  | .object fields => do
    Plan.draft? (← fields.lookup "ids") (← fields.lookup "begin") (← fields.lookup "end")
  | .array [nodes, start, stop] => Plan.draft? nodes start stop
  | _ => none

/-- Loads a stored plan. Its shape is judged first, and then whether its run fits its nodes. -/
def Plan.load (document : Json) : Except Failure Plan :=
  match Plan.ofJson? document with
  | none => .error .misshapen
  | some p => if p.runFits then .ok p else .error (.refused (.strayRun p.run p.nodes.length))

end MerkleLog
