/-!
# Fields of a line

* `padRight`: a field filled with blanks to a width, counted in code points.
* `pieces`: a text cut at each separator; there is one piece more than there are separators.
-/

namespace AnnotatedLogic.Text

/-- A text filled with blanks on the right to a width, counted in code points. -/
def padRight (width : Nat) (s : String) : String :=
  s ++ String.ofList (List.replicate (width - s.length) ' ')

/-- The pieces of a text between the places where a character stands. -/
def pieces (separator : Char) (s : String) : List String :=
  (split s.toList).map String.ofList
where
  /-- One piece more than there are separators. -/
  split : List Char → List (List Char)
    | [] => [[]]
    | c :: cs =>
      let rest := split cs
      if c = separator then [] :: rest
      else match rest with
        | [] => [[c]]
        | p :: ps => (c :: p) :: ps

end AnnotatedLogic.Text
