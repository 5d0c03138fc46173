/-
# Parts between separators

Key definitions: `partsBetween`.
-/
namespace Brokerage
namespace Http

/-- What stands between separators; one part more than there are separators. -/
def partsBetween (separates : Char → Bool) : List Char → List (List Char)
  | [] => [[]]
  | c :: cs =>
    if separates c then [] :: partsBetween separates cs
    else match partsBetween separates cs with
      | [] => [[c]]
      | part :: parts => (c :: part) :: parts

end Http
end Brokerage
