/-!
# Pieces of a text

The pieces of a text between the places where a character stands. There is always
one more piece than places.
-/
namespace FlowEngine.Text

def split (separator : Char) : List Char → List (List Char)
  | [] => [[]]
  | c :: rest =>
    match split separator rest with
    | [] => [[c]]
    | piece :: more =>
      if c = separator then [] :: piece :: more else (c :: piece) :: more

theorem length_split (separator : Char) (cs : List Char) :
    (split separator cs).length = cs.count separator + 1 := by
  induction cs with
  | nil => rfl
  | cons c rest ih =>
    cases h : split separator rest with
    | nil => simp [h] at ih
    | cons piece more =>
      rw [h] at ih
      by_cases hc : c = separator <;> simp_all [split]

end FlowEngine.Text
