import ContentVault.ContentKey
import ContentVault.Decimal
import ContentVault.DigestUri

/-!
# Commands

A command names a configuration and what to do with the backend it describes:
store a file under the SHA-1 digest of its content, or check a stored value against
a digest and a size.
-/

namespace ContentVault

inductive Action where
  | store (file : String)
  | check (key : ContentKey) (digest : DigestUri) (size : UInt64)
  deriving DecidableEq

structure Command where
  config : String
  action : Action
  deriving DecidableEq

namespace Command

/-- Whether an argument stands for an option; a lone hyphen is a value. -/
def isOption (argument : String) : Bool :=
  match argument.toList with
  | '-' :: _ :: _ => true
  | _ => false

/-- The values among the arguments of an action, which has no options.  After two
hyphens everything is a value. -/
def values? : List String → Option (List String)
  | [] => some []
  | argument :: rest =>
    if argument = "--" then some rest
    else if isOption argument then none
    else (values? rest).map (argument :: ·)

/-- The natural number below 2^64 that a text spells; a plus may precede it. -/
def readSize? (text : String) : Option UInt64 :=
  let digits := match Bytes.ofText text with
    | 0x2b :: digits => digits
    | digits => digits
  let size := Decimal.number digits
  if digits ≠ [] ∧ digits.all Decimal.isDigit ∧ size < UInt64.size then some (UInt64.ofNat size)
  else none

def readAction? (name : String) (arguments : List String) : Option Action :=
  match name, values? arguments with
  | "store", some [file] => if file = "" then none else some (.store file)
  | "check", some [key, digest, size] =>
    match DigestUri.parse digest, readSize? size with
    | .ok digest, some size => some (.check ⟨key⟩ digest size)
    | _, _ => none
  | _, _ => none

def dropMark? : List Char → List Char → Option (List Char)
  | [], text => some text
  | _ :: _, [] => none
  | c :: mark, d :: text => if c = d then dropMark? mark text else none

def attachedConfig? (argument : String) : Option String :=
  match dropMark? "--config=".toList argument.toList with
  | some value => some (String.ofList value)
  | none =>
    match dropMark? "-c".toList argument.toList with
    | none => none
    | some [] => none
    | some ('=' :: value) => some (String.ofList value)
    | some value => some (String.ofList value)

/-- Reads the arguments of a command, after the configuration if it has been given.
The configuration is given once, before the action. -/
def parseFrom? : Option String → List String → Option Command
  | _, [] => none
  | _, [_] => none
  | config, argument :: value :: rest =>
    if argument = "-c" ∨ argument = "--config" then
      if config.isSome ∨ value = "" ∨ isOption value then none
      else parseFrom? (some value) rest
    else match attachedConfig? argument with
      | some attached =>
        if config.isSome ∨ attached = "" then none
        else parseFrom? (some attached) (value :: rest)
      | none =>
        match config with
        | some config => (readAction? argument (value :: rest)).map (⟨config, ·⟩)
        | none => none

def parse? (arguments : List String) : Option Command :=
  parseFrom? none arguments

end Command

end ContentVault
