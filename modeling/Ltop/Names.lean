import Mathlib
import Ltop.Bytes

namespace Ltop

def NOISE : List UInt32 :=
  [nameHash (bytes "ssm-session-worker"), nameHash (bytes "spotlight"),
    nameHash (bytes "springboard"), nameHash (bytes "newstoday2"),
    nameHash (bytes "newsscoringservice"), nameHash (bytes "screentimeagent"),
    nameHash (bytes "appleaccountd"), nameHash (bytes "siriinferenced"),
    nameHash (bytes "siriactionsd"), nameHash (bytes "callservicesd"),
    nameHash (bytes "calaccessd"), nameHash (bytes "amsengagementd"),
    nameHash (bytes "chronod"), nameHash (bytes "remindd"), nameHash (bytes "routined"),
    nameHash (bytes "textunderstandingd"), nameHash (bytes "corespeechd"),
    nameHash (bytes "characterpalette")]

def isNoise (comm : List UInt8) (args : List (List UInt8)) : Bool :=
  let name := (args.head?.map basename).getD comm
  has NOISE (nameHash name)
    || icontains name (bytes "chrome")
    || icontains name (bytes "widget")
    || (bytes "com.apple.").isPrefixOf name
    || (bytes "amazon-").isPrefixOf name
    || (bytes "BlastDoorService").isSuffixOf name

def isIdleNoise (_comm : List UInt8) (_args : List (List UInt8)) : Bool := false

def isLeanOrLakeName (name : List UInt8) : Bool := name == bytes "lean" || name == bytes "lake"

def isLeanOrLake (comm : List UInt8) (args : List (List UInt8)) : Bool :=
  let base := (args.head?.map basename).getD []
  isLeanOrLakeName comm || isLeanOrLakeName base

def hasLeanKeyword (s : List UInt8) : Bool :=
  icontains s (bytes "lean") || icontains s (bytes "lake") || icontains s (bytes "certificate")

def isLeanRelated (comm : List UInt8) (args : List (List UInt8)) : Bool :=
  hasLeanKeyword comm || (args.take 3).any hasLeanKeyword

def isInterpreter (base : List UInt8) : Bool :=
  (decide (6 ≤ base.length) && ieq (base.take 6) (bytes "python"))
    || ieq base (bytes "ruby")
    || ieq base (bytes "node")
    || ieq base (bytes "perl")
    || ieq base (bytes "lua")

def isFlag (arg : List UInt8) : Bool := (bytes "-").isPrefixOf arg

def takesValue (arg : List UInt8) : Bool :=
  (arg.length == 2 && (arg.drop 1).any (bytes "cmWXQ").contains)
    || arg == bytes "--check-hash-based-pycs"

def scriptArg : Bool → List (List UInt8) → Option (List UInt8)
  | _, [] => none
  | true, _ :: args => scriptArg false args
  | false, arg :: args =>
    if isFlag arg then scriptArg (takesValue arg) args else some (basename arg)

def findScriptArg (args : List (List UInt8)) : Option (List UInt8) := scriptArg false (args.drop 1)

def hasCxxExt (a : List UInt8) : Bool :=
  (bytes ".cc").isSuffixOf a || (bytes ".cpp").isSuffixOf a || (bytes ".cxx").isSuffixOf a
    || (bytes ".c").isSuffixOf a || (bytes ".C").isSuffixOf a || (bytes ".c++").isSuffixOf a

def findCcSource (args : List (List UInt8)) : Option (List UInt8) :=
  (args.find? fun arg => !isFlag arg && hasCxxExt arg).map basename

def leanLabel (args : List (List UInt8)) : List UInt8 :=
  let any := fun needle : String => args.any fun a => icontains a (bytes needle)
  if any "--worker" then bytes "lean"
  else if any "--server" then bytes "lean --server"
  else if any "lake" && any "serve" then bytes "lake serve"
  else if any "lean.rs" || any "debug/lean" then bytes "lean-mcp"
  else if any "certificate" then bytes "certificate"
  else match args.find? hasLeanKeyword with
    | some arg => basename arg
    | none => (args.head?.map basename).getD (bytes "?")

def isModuleName (arg : List UInt8) : Bool :=
  !isFlag arg && !arg.contains 47 && arg.contains 46 &&
    (arg.takeWhile (· != 46)).head?.any fun b => 65 ≤ b && b ≤ 90

def stripFileUrl (arg : List UInt8) : List UInt8 :=
  if (bytes "file://").isPrefixOf arg then arg.drop 7 else arg

def findLeanFile : List (List UInt8) → Option (List UInt8)
  | [] => none
  | arg :: args =>
    let path := stripFileUrl arg
    if (bytes ".lean").isSuffixOf path then
      some (match rfindBytes path (bytes "/AKS/") with
        | some idx => path.drop (idx + 1)
        | none => basename path)
    else if isModuleName arg then some arg
    else findLeanFile args

def buildCommand (comm : List UInt8) (args : List (List UInt8)) (isRelated : Bool) : List UInt8 :=
  if !isRelated then
    match args.head? with
    | none => comm
    | some arg0 =>
      let base := basename arg0
      if isInterpreter base then (findScriptArg args).getD base else base
  else
    leanLabel args ++ match findLeanFile args with
      | some f => bytes " " ++ f
      | none => []

def buildDisplayInto (comm : List UInt8) (args : List (List UInt8)) (isRelated : Bool) :
    List UInt8 :=
  if comm == bytes "cc1plus" || comm == bytes "cc1" then
    match findCcSource args with
    | some src => comm ++ bytes " " ++ src
    | none => buildCommand comm args isRelated
  else buildCommand comm args isRelated

end Ltop
