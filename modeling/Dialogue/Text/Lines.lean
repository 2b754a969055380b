/-! Splitting a text into lines. A line ends at a line feed, together with one
carriage return right before it; a carriage return anywhere else is part of the
line, and no line follows a final line feed. -/
namespace Dialogue.Text

def prependToFirst (c : Char) : List (List Char) → List (List Char)
  | [] => [[c]]
  | line :: lines => (c :: line) :: lines

def splitLines : List Char → List (List Char)
  | [] => []
  | '\n' :: rest => [] :: splitLines rest
  | '\r' :: '\n' :: rest => [] :: splitLines rest
  | c :: rest => prependToFirst c (splitLines rest)

theorem notMem_prependToFirst {c d : Char} {lines : List (List Char)} (hne : d ≠ c)
    (h : ∀ line ∈ lines, d ∉ line) : ∀ line ∈ prependToFirst c lines, d ∉ line := by
  intro line hline
  cases lines with
  | nil =>
    obtain rfl := List.mem_singleton.mp hline
    exact fun hd => hne (List.mem_singleton.mp hd)
  | cons first rest =>
    rcases List.mem_cons.mp hline with rfl | hrest
    · intro hd
      rcases List.mem_cons.mp hd with hdc | hfirst
      · exact hne hdc
      · exact h first List.mem_cons_self hfirst
    · exact h line (List.mem_cons_of_mem _ hrest)

theorem newline_notMem_splitLines (text : List Char) :
    ∀ line ∈ splitLines text, '\n' ∉ line := by
  fun_induction splitLines text with
  | case1 => exact fun _ h => nomatch h
  | case2 rest ih =>
    intro line hline
    rcases List.mem_cons.mp hline with rfl | hrest
    · exact List.not_mem_nil
    · exact ih line hrest
  | case3 rest ih =>
    intro line hline
    rcases List.mem_cons.mp hline with rfl | hrest
    · exact List.not_mem_nil
    · exact ih line hrest
  | case4 c rest hc _ ih => exact notMem_prependToFirst (fun h => hc h.symm) ih

def lines (source : String) : List String :=
  (splitLines source.toList).map String.ofList

end Dialogue.Text
