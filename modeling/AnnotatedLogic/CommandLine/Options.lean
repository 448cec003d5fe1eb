/-!
# Options on a command line

An option is written `--name`; one that takes a value is written `--name value` or `--name=value`.
Options change settings from the left to the right, each at most once. What is no option ends them.

* `readOptions`: the settings and the arguments from the first word on, or why reading stopped.
* A value that starts with `-` has to be written behind `=`; a lone `-` is a word like any other.
* `--` ends the options, and no argument may follow it.
-/

namespace AnnotatedLogic.CommandLine

variable {σ : Type}

/-- What an option does to the settings. -/
inductive Action (σ : Type) where
  /-- It takes no value. -/
  | flag (set : σ → σ)
  /-- It takes a value, unless the value is refused. -/
  | value (set : String → Option (σ → σ))
  /-- It asks for something else than to go on. -/
  | ask (short : Char)

/-- An option by its name. -/
structure CommandOption (σ : Type) where
  name : String
  action : Action σ

/-- Why the reading of options stops. -/
inductive Stop where
  /-- The arguments are not those of a command. -/
  | misuse
  /-- The option of this name asks for something else. -/
  | asked (name : String)
deriving DecidableEq

/-- An argument by its shape. -/
inductive Argument where
  | word (s : String)
  /-- A name behind two dashes, and what stands behind the first `=` after it. -/
  | long (name : String) (attached : Option String)
  /-- Letters behind one dash. -/
  | short (letters : List Char)
  /-- Two dashes alone. -/
  | endOfOptions
deriving DecidableEq

/-- The shape of an argument. -/
def Argument.ofString (s : String) : Argument :=
  match s.toList with
  | ['-', '-'] => .endOfOptions
  | '-' :: '-' :: cs =>
    let name := String.ofList (cs.takeWhile (· != '='))
    match cs.dropWhile (· != '=') with
    | [] => .long name none
    | _ :: value => .long name (some (String.ofList value))
  | '-' :: c :: cs => .short (c :: cs)
  | _ => .word s

/-- What the first of some letters asks for; no option takes its value behind a letter. -/
def askedBy (options : List (CommandOption σ)) : List Char → Stop
  | [] => .misuse
  | c :: _ =>
    let asks (o : CommandOption σ) : Bool :=
      match o.action with
      | .ask short => short == c
      | _ => false
    match options.find? asks with
    | some o => .asked o.name
    | none => .misuse

/-- The settings after a value is given to an option. -/
def giveValue (set : String → Option (σ → σ)) (value : String) (s : σ) : Except Stop σ :=
  match set value with
  | some change => .ok (change s)
  | none => .error .misuse

/-- The settings after some options, and the arguments from the first word on. The options in
`seen` have been given before. -/
def readOptions (options : List (CommandOption σ)) (seen : List String) (s : σ) :
    List String → Except Stop (σ × List String)
  | [] => .ok (s, [])
  | arg :: rest =>
    match Argument.ofString arg with
    | .word _ => .ok (s, arg :: rest)
    | .endOfOptions => if rest.isEmpty then .ok (s, []) else .error .misuse
    | .short letters => .error (askedBy options letters)
    | .long name attached =>
      if seen.contains name then .error .misuse
      else
        match options.find? fun o => o.name == name, attached with
        | some ⟨_, .flag set⟩, none => readOptions options (name :: seen) (set s) rest
        | some ⟨_, .ask _⟩, none => .error (.asked name)
        | some ⟨_, .value set⟩, some value =>
          match giveValue set value s with
          | .ok s => readOptions options (name :: seen) s rest
          | .error stop => .error stop
        | some ⟨_, .value set⟩, none =>
          match rest with
          | [] => .error .misuse
          | next :: rest =>
            match Argument.ofString next with
            | .word value =>
              match giveValue set value s with
              | .ok s => readOptions options (name :: seen) s rest
              | .error stop => .error stop
            | _ => .error .misuse
        | _, _ => .error .misuse

end AnnotatedLogic.CommandLine
