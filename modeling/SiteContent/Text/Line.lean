/-! The lines of a text, each with the line feed that ends it. -/

namespace SiteContent.Text

/-- Only the last line may lack its line feed, and no line is empty. -/
def lines : List Char → List (List Char)
  | [] => []
  | c :: rest =>
    if c = '\n' then [c] :: lines rest
    else
      match lines rest with
      | [] => [[c]]
      | l :: ls => (c :: l) :: ls

theorem flatten_lines (cs : List Char) : (lines cs).flatten = cs := by
  induction cs with
  | nil => rfl
  | cons c rest ih =>
    rw [lines]
    split
    · simp [ih]
    · cases hl : lines rest with
      | nil => simpa [hl] using ih
      | cons l ls => simpa [hl] using ih

end SiteContent.Text
