import Supermartingale.Error

/-!
# Values of configuration files

A configuration file holds numbers, texts, truth values, lists and objects. What a field has to be
is checked where the field is used, so values keep their sort until then.
-/

namespace Supermartingale

/-- A thing of a sort that no field makes use of: the name of the sort, its text, and its text inside
another value. -/
structure Foreign where
  sort : String
  shown : String
  quoted : String
deriving DecidableEq, Repr

inductive Key where
  | null
  | bool (b : Bool)
  | number (n : Number)
  | text (s : String)
  | foreign (x : Foreign)

namespace Key

instance : Coe String Key := ⟨text⟩

instance : Inhabited Key := ⟨null⟩

def number? : Key → Option Number
  | number n => some n
  | bool b => some (.int (if b then 1 else 0))
  | _ => none

/-- Whether two keys name the same field. -/
def same (k l : Key) : Bool :=
  match k, l with
  | null, null => true
  | text s, text t => s == t
  | foreign x, foreign y => x == y
  | k, l => match k.number?, l.number? with
    | some m, some n => m.same n || (!m.same m && !n.same n)
    | _, _ => false

def toText : Key → String
  | null => "None"
  | bool b => if b then "True" else "False"
  | number n => n.text
  | text s => s
  | foreign x => x.shown

def inner : Key → String
  | text s => Text.quoted s
  | foreign x => x.quoted
  | k => k.toText

def toTextOnly : Key → Except Error String
  | text s => .ok s
  | _ => .error .misapplied

end Key

inductive Value where
  | null
  | bool (b : Bool)
  | number (n : Number)
  | text (s : String)
  | list (xs : List Value)
  | object (fields : List (Key × Value))
  | foreign (x : Foreign)

abbrev Fields := List (Key × Value)

namespace Value

def record (fields : List (String × Value)) : Value := object (fields.map (fun (k, v) => (.text k, v)))

def ofKey : Key → Value
  | .null => null
  | .bool b => bool b
  | .number n => number n
  | .text s => text s
  | .foreign x => foreign x

def key? : Value → Option Key
  | null => some .null
  | bool b => some (.bool b)
  | number n => some (.number n)
  | text s => some (.text s)
  | foreign x => some (.foreign x)
  | _ => none

instance : Inhabited Value := ⟨null⟩

def int (n : Int) : Value := number (.int n)

def ofNat (n : Nat) : Value := int n

def sortName : Value → String
  | null => "NoneType"
  | bool _ => "bool"
  | number (.int _) => "int"
  | number (.double _) => "float"
  | text _ => "str"
  | list _ => "list"
  | object _ => "dict"
  | foreign x => x.sort

def sortText (v : Value) : String := "<class '" ++ v.sortName ++ "'>"

mutual

def inner : Value → String
  | null => "None"
  | bool b => if b then "True" else "False"
  | number n => n.text
  | text s => Text.quoted s
  | list xs => "[" ++ String.intercalate ", " (innerTexts xs) ++ "]"
  | object fields => "\x7b" ++ String.intercalate ", " (fieldTexts fields) ++ "\x7d"
  | foreign x => x.quoted

def innerTexts : List Value → List String
  | [] => []
  | x :: xs => x.inner :: innerTexts xs

def fieldTexts : List (Key × Value) → List String
  | [] => []
  | (k, v) :: fields => (k.inner ++ ": " ++ v.inner) :: fieldTexts fields

end

def toText : Value → String
  | text s => s
  | foreign x => x.shown
  | v => v.inner

def isEmpty : Value → Bool
  | null => true
  | bool b => !b
  | number n => n.isZero
  | text s => s.isEmpty
  | list xs => xs.isEmpty
  | object fields => fields.isEmpty
  | foreign _ => false

def isNull : Value → Bool
  | null => true
  | _ => false

def number? : Value → Option Number
  | number n => some n
  | bool b => some (.int (if b then 1 else 0))
  | _ => none

def toNumber (v : Value) : Except Error Number :=
  match v.number? with
  | some n => .ok n
  | none => .error .misapplied

def int? : Value → Option Int
  | number (.int n) => some n
  | bool b => some (if b then 1 else 0)
  | _ => none

def count (v : Value) : Except Error Nat :=
  match v.int? with
  | some n => .ok n.toNat
  | none => .error .misapplied

def isInt (v : Value) (n : Int) : Bool :=
  match v.number? with
  | some m => m.same (.int n)
  | none => false

def isText (v : Value) (s : String) : Bool :=
  match v with
  | text t => t == s
  | _ => false

def length : Value → Except Error Nat
  | text s => .ok s.length
  | list xs => .ok xs.length
  | object fields => .ok fields.length
  | _ => .error .misapplied

def members : Value → Except Error (List Value)
  | list xs => .ok xs
  | text s => .ok (s.toList.map (fun c => text (String.ofList [c])))
  | object fields => .ok (fields.map (fun (k, _) => ofKey k))
  | _ => .error .misapplied

def fields : Value → Except Error Fields
  | object fields => .ok fields
  | _ => .error .misapplied

def entry (v : Value) (i : Nat) : Except Error Value :=
  match v with
  | list xs => xs[i]?.elim (.error .missingPosition) .ok
  | text s => s.toList[i]?.elim (.error .missingPosition) (fun c => .ok (text (String.ofList [c])))
  | object fields =>
    match fields.find? (fun (k, _) => k.same (.number (.int i))) with
    | some (_, w) => .ok w
    | none => .error (.missingKey (toString i))
  | _ => .error .misapplied

/-! ## Objects -/

/-- Sets a field: in its place if it is there, at the end otherwise. The key that was there first
stays. -/
def setField (fields : Fields) (key : Key) (v : Value) : Fields :=
  if fields.any (fun (k, _) => k.same key) then
    fields.map (fun (k, w) => if k.same key then (k, v) else (k, w))
  else fields ++ [(key, v)]

def setFields (fields more : Fields) : Fields := more.foldl (fun fields (k, v) => setField fields k v) fields

def find? (fields : Fields) (name : String) : Option Value :=
  (fields.find? (fun (k, _) => k.same (.text name))).map (·.2)

def item (v : Value) (name : String) : Except Error Value :=
  match v with
  | object fields => (find? fields name).elim (.error (.missingKey name)) .ok
  | _ => .error .misapplied

def get (v : Value) (name : String) (otherwise : Value := null) : Except Error Value :=
  match v with
  | object fields => .ok ((find? fields name).getD otherwise)
  | _ => .error .absentPart

def toTextOnly : Value → Except Error String
  | text s => .ok s
  | _ => .error .misapplied

/-! ## Order -/

mutual

def same : Value → Value → Bool
  | null, null => true
  | text s, text t => s == t
  | foreign x, foreign y => x == y
  | list xs, list ys => sameMembers xs ys
  | object fs, object gs => fs.length == gs.length && sameFields fs gs
  | v, w => match v.number?, w.number? with
    | some m, some n => m.same n
    | _, _ => false

def sameMembers : List Value → List Value → Bool
  | [], [] => true
  | x :: xs, y :: ys => same x y && sameMembers xs ys
  | _, _ => false

def sameFields : List (Key × Value) → List (Key × Value) → Bool
  | [], _ => true
  | (k, v) :: fs, gs =>
    (match gs.find? (fun (l, _) => k.same l) with
      | some (_, w) => same v w
      | none => false) && sameFields fs gs

end

mutual

/-- Whether a value is at least another one; numbers, texts and lists can be compared among
themselves. -/
def atLeast (v w : Value) : Except Error Bool :=
  match v, w with
  | text s, text t => .ok (t ≤ s)
  | list xs, list ys => membersAtLeast xs ys
  | v, w => match v.number?, w.number? with
    | some m, some n => .ok (n.less m || m.same n)
    | _, _ => .error .misapplied

def membersAtLeast : List Value → List Value → Except Error Bool
  | _, [] => .ok true
  | [], _ :: _ => .ok false
  | x :: xs, y :: ys => if same x y then membersAtLeast xs ys else atLeast x y

end

end Value

end Supermartingale
