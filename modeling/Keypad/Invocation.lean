import Keypad.Text

/-! # Invocation — how the program is started

    The program is started with keystrokes to run, or without any for a
    prompt.  It can also be asked to log more, any number of times; that
    never shows in what it prints. -/

namespace Keypad

/-- How the program was started. -/
structure Invocation where
  /-- Keystrokes to run at once instead of a prompt. -/
  keys? : Option Text := none
  /-- How much to log. -/
  verbosity : Nat := 0
deriving DecidableEq, Repr

namespace Invocation

/-- Counts one more request to log. -/
def louder (i : Invocation) : Invocation :=
  { i with verbosity := i.verbosity + 1 }

/-- Takes keystrokes, once. -/
def withKeys? (i : Invocation) (keys : Text) : Option Invocation :=
  if i.keys?.isSome then none else some { i with keys? := some keys }

/-- Whether an argument can be keystrokes: what a dash begins is an option,
    a dash alone is not. -/
def isKeys : Text → Bool
  | '-' :: _ :: _ => false
  | _ => true

/-- Takes a group of short options.  The letter `v` may be repeated; what
    follows a `k`, less one equals sign, are the keystrokes, and where nothing
    follows they are the next argument, which the second component asks
    for. -/
def shorts? (i : Invocation) : Text → Option (Invocation × Bool)
  | [] => some (i, false)
  | 'v' :: t => i.louder.shorts? t
  | ['k'] => some (i, true)
  | 'k' :: '=' :: t => (i.withKeys? t).map fun i => (i, false)
  | 'k' :: t => (i.withKeys? t).map fun i => (i, false)
  | _ => none

/-- Takes the arguments of the program; nothing if one is unknown or without
    its value, or if keystrokes are given twice.  Two dashes end the options,
    and nothing may follow them. -/
def ofArguments? (i : Invocation) : List Text → Option Invocation
  | [] => some i
  | argument :: rest =>
      if argument = "--".toList then
        if rest.isEmpty then some i else none
      else if argument = "--verbose".toList then i.louder.ofArguments? rest
      else if "--keys=".toList.isPrefixOf argument then
        (i.withKeys? (argument.drop 7)).bind fun i => i.ofArguments? rest
      else
        let options : Option (Invocation × Bool) :=
          if argument = "--keys".toList then some (i, true)
          else
            match argument with
            | '-' :: c :: letters => i.shorts? (c :: letters)
            | _ => none
        match options, rest with
        | some (i, false), rest => i.ofArguments? rest
        | some (i, true), keys :: rest =>
            if isKeys keys then
              (i.withKeys? keys).bind fun i => i.ofArguments? rest
            else none
        | _, _ => none

end Invocation

end Keypad
