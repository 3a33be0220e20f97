import Mathlib

namespace Ltop

def bytes (s : String) : List UInt8 := s.toList.flatMap String.utf8EncodeChar

def eqIgnoreAsciiCase (x y : UInt8) : Bool :=
  let lower := fun c : UInt8 => if 65 ≤ c ∧ c ≤ 90 then c + 32 else c
  lower x == lower y

def ieq (a b : List UInt8) : Bool :=
  a.length == b.length && (a.zip b).all fun p => eqIgnoreAsciiCase p.1 p.2

def nameHash (s : List UInt8) : UInt32 :=
  s.foldl (fun h c => (h ^^^ (c ||| 0x20).toUInt32) * 0x01000193) 0x811c9dc5

def has (t : List UInt32) (h : UInt32) : Bool := t.any (· == h)

def windows (n : ℕ) (s : List UInt8) : List (List UInt8) :=
  (List.range (s.length + 1 - n)).map fun i => (s.drop i).take n

def icontains (haystack needle : List UInt8) : Bool :=
  if needle.isEmpty then true
  else if haystack.length < needle.length then false
  else (windows needle.length haystack).any (ieq · needle)

def basename (s : List UInt8) : List UInt8 :=
  (s.reverse.takeWhile (· != 47)).reverse

def rfindBytes (haystack needle : List UInt8) : Option ℕ :=
  if needle.isEmpty then some haystack.length
  else if haystack.length < needle.length then none
  else (List.range (haystack.length - needle.length + 1)).reverse.find? fun i =>
    (haystack.drop i).take needle.length == needle

end Ltop
