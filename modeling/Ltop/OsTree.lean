import Mathlib
import Ltop.OsBinary

namespace Ltop.Os

inductive Node where
  | dict (eoc : Bool) (pairs : List (Node × Node))
  | array (eoc : Bool) (items : List Node)
  | set (eoc : Bool) (items : List Node)
  | number (eoc : Bool) (width : ℕ) (value : UInt64)
  | symbol (eoc : Bool) (name : List UInt8)
  | string (eoc : Bool) (text : List UInt8)
  | data (eoc : Bool) (payload : List UInt8)
  | boolean (eoc : Bool) (value : Bool)
  | object (eoc : Bool) (index : ℕ)

def toLeBytes : ℕ → ℕ → List UInt8
  | 0, _ => []
  | n + 1, x => x.toUInt8 :: toLeBytes n (x / 256)

def emitTag (ty operand : ℕ) (eoc : Bool) : List UInt8 :=
  toLeBytes 4 ((ty <<< 24) ||| (operand &&& 0x00ffffff) ||| if eoc then 0x80000000 else 0)

def pad (bs : List UInt8) : List UInt8 :=
  bs ++ List.replicate ((bs.length + 3) / 4 * 4 - bs.length) 0

namespace Node

mutual

def encode : Node → List UInt8
  | dict eoc pairs => emitTag TYPE_DICT pairs.length eoc ++ encodePairs pairs
  | array eoc items => emitTag TYPE_ARRAY items.length eoc ++ encodeAll items
  | set eoc items => emitTag TYPE_SET items.length eoc ++ encodeAll items
  | number eoc width value => emitTag TYPE_NUMBER width eoc ++ toLeBytes 8 value.toNat
  | symbol eoc name => emitTag TYPE_SYMBOL (name.length + 1) eoc ++ pad (name ++ [0])
  | string eoc text => emitTag TYPE_STRING text.length eoc ++ pad text
  | data eoc payload => emitTag TYPE_DATA payload.length eoc ++ pad payload
  | boolean eoc value => emitTag TYPE_BOOLEAN value.toNat eoc
  | object eoc index => emitTag TYPE_OBJECT index eoc

def encodeAll : List Node → List UInt8
  | [] => []
  | n :: ns => encode n ++ encodeAll ns

def encodePairs : List (Node × Node) → List UInt8
  | [] => []
  | (k, v) :: rest => encode k ++ encode v ++ encodePairs rest

end

def children : Node → List Node
  | dict _ pairs => pairs.flatMap fun p => [p.1, p.2]
  | array _ items => items
  | set _ items => items
  | _ => []

def operand : Node → ℕ
  | dict _ pairs => pairs.length
  | array _ items => items.length
  | set _ items => items.length
  | number _ width _ => width
  | symbol _ name => name.length + 1
  | string _ text => text.length
  | data _ payload => payload.length
  | boolean _ value => value.toNat
  | object _ index => index

mutual

def objects : Node → List Node
  | dict eoc pairs => dict eoc pairs :: objectsPairs pairs
  | array eoc items => array eoc items :: objectsAll items
  | set eoc items => set eoc items :: objectsAll items
  | object _ _ => []
  | n => [n]

def objectsAll : List Node → List Node
  | [] => []
  | n :: ns => objects n ++ objectsAll ns

def objectsPairs : List (Node × Node) → List Node
  | [] => []
  | (k, v) :: rest => objects k ++ objects v ++ objectsPairs rest

end

def isObject : Node → Bool
  | object _ _ => true
  | _ => false

def resolve (objs : List Node) : Node → Option Node
  | object _ index => objs[index]?
  | n => some n

def asNumber (objs : List Node) (n : Node) : Option ℕ :=
  match n.resolve objs with
  | some (number _ _ value) => some value.toNat
  | _ => none

def asString (objs : List Node) (n : Node) : Option (List UInt8) :=
  match n.resolve objs with
  | some (string _ text) => some text
  | _ => none

def asSymbol (objs : List Node) (n : Node) : Option (List UInt8) :=
  match n.resolve objs with
  | some (symbol _ name) => some name
  | _ => none

def asBool (objs : List Node) (n : Node) : Option Bool :=
  match n.resolve objs with
  | some (boolean _ value) => some value
  | _ => none

def findDict (objs : List Node) (n : Node) (key : List UInt8) : Option Node :=
  match n.resolve objs with
  | some (dict _ pairs) => (pairs.find? fun p => p.1.asSymbol objs = some key).map Prod.snd
  | _ => none

def elements (objs : List Node) (n : Node) : Option (List Node) :=
  match n.resolve objs with
  | some (array _ items) => some items
  | some (set _ items) => some items
  | _ => none

end Node

inductive Ordered : List Node → ℕ → ℕ → Prop where
  | nil {seen : ℕ} : Ordered [] seen seen
  | ref {eoc : Bool} {index seen out : ℕ} {ns : List Node} :
      index < seen → index < 2 ^ 24 → Ordered ns seen out → Ordered (.object eoc index :: ns) seen out
  | node {n : Node} {seen mid out : ℕ} {ns : List Node} :
      n.isObject = false → n.operand < 2 ^ 24 → Ordered n.children (seen + 1) mid →
      Ordered ns mid out → Ordered (n :: ns) seen out

end Ltop.Os
