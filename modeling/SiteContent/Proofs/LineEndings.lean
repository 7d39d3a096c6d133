import SiteContent.Proofs.HeaderDivision

/-! A text in which a carriage return comes before every line feed. Its lines are those of the text
and the same ones are delimiters, so that both divide at the same places. -/

namespace SiteContent

namespace Text

def withReturns (cs : List Char) : List Char :=
  cs.flatMap fun c => if c = '\n' then ['\r', '\n'] else [c]

/-- The text with each line feed replaced by a carriage return and a line feed. -/
def crlf (text : String) : String :=
  String.ofList (withReturns text.toList)

variable {l cs : List Char} {ls : List (List Char)}

theorem withReturns_append (cs ds : List Char) :
    withReturns (cs ++ ds) = withReturns cs ++ withReturns ds :=
  List.flatMap_append

theorem withReturns_flatten (ls : List (List Char)) :
    withReturns ls.flatten = (ls.map withReturns).flatten := by
  induction ls with
  | nil => rfl
  | cons l ls ih => rw [List.flatten_cons, withReturns_append, ih, List.map_cons, List.flatten_cons]

theorem withReturns_eq_self (h : '\n' ∉ l) : withReturns l = l := by
  induction l with
  | nil => rfl
  | cons c l ih =>
    rw [List.mem_cons, not_or] at h
    have hl : withReturns l = l := ih h.2
    have hc : c ≠ '\n' := Ne.symm h.1
    rw [withReturns, List.flatMap_cons, if_neg hc]
    exact congrArg (c :: ·) hl

theorem withReturns_line (h : '\n' ∉ l) : withReturns (l ++ ['\n']) = (l ++ ['\r']) ++ ['\n'] := by
  rw [withReturns_append, withReturns_eq_self h, List.append_assoc]
  rfl

theorem Cut.map_withReturns (h : Cut ls) : Cut (ls.map withReturns) := by
  induction h with
  | nil => exact .nil
  | last hne hl =>
    rw [List.map_singleton, withReturns_eq_self hl]
    exact .last hne hl
  | line hl _ ih =>
    rw [List.map_cons, withReturns_line hl]
    exact .line (by simp [hl]) ih

/-- Carriage returns end up in the lines that they were put in, and begin no line of their own. -/
theorem lines_withReturns (cs : List Char) :
    lines (withReturns cs) = (lines cs).map withReturns := by
  refine lines_eq_iff.mpr ⟨(cut_lines cs).map_withReturns, ?_⟩
  rw [← withReturns_flatten, flatten_lines]

theorem lines_crlf (text : String) :
    lines (crlf text).toList = (lines text.toList).map withReturns := by
  rw [crlf, String.toList_ofList, lines_withReturns]

theorem Cut.exists_of_mem (h : Cut ls) (hl : l ∈ ls) :
    ∃ m, '\n' ∉ m ∧ (l = m ∨ l = m ++ ['\n']) := by
  induction h with
  | nil => simp at hl
  | last _ hm => exact ⟨l, by simpa [List.mem_singleton.mp hl] using hm, .inl rfl⟩
  | line hm _ ih =>
    rcases List.mem_cons.mp hl with rfl | hl
    · exact ⟨_, hm, .inr rfl⟩
    · exact ih hl

end Text

namespace FrontMatter

open Text

variable {l first closing : List Char} {ls : List (List Char)} {text header body : String}

/-- A carriage return before the line feed is one more blank at the end of the line. -/
theorem delimiter_withReturns_iff (h : Cut ls) (hl : l ∈ ls) :
    Delimiter (withReturns l) ↔ Delimiter l := by
  obtain ⟨m, hm, rfl | rfl⟩ := h.exists_of_mem hl
  · rw [withReturns_eq_self hm]
  · have hblank : ∀ c ∈ ['\n'], isBlank c = true := List.forall_mem_singleton.mpr rfl
    have hblanks : ∀ c ∈ ['\r', '\n'], isBlank c = true := List.forall_mem_cons.mpr ⟨rfl, hblank⟩
    have hfeed : trimEnd (m ++ ['\n']) = trimEnd m := trimEnd_append_blanks hblank
    have hboth : trimEnd (m ++ ['\r', '\n']) = trimEnd m := trimEnd_append_blanks hblanks
    have hline : withReturns (m ++ ['\n']) = m ++ ['\r', '\n'] := by
      rw [withReturns_line hm, List.append_assoc]
      rfl
    rw [← isDelimiter_iff, ← isDelimiter_iff, hline, isDelimiter, isDelimiter, hfeed, hboth]

theorem Unopened.crlf (h : Unopened text) : Unopened (crlf text) := by
  have hcut := cut_lines text.toList
  rw [Unopened, lines_crlf]
  cases hl : lines text.toList with
  | nil => simp
  | cons l ls =>
    rw [hl] at hcut
    have hnot : ¬ Delimiter l := h l (by simp [hl])
    simpa [delimiter_withReturns_iff hcut] using hnot

theorem Unclosed.crlf (h : Unclosed text) : Unclosed (crlf text) := by
  obtain ⟨first, ls, hl, hfirst, hls⟩ := h
  have hcut : Cut (first :: ls) := hl ▸ cut_lines text.toList
  refine ⟨withReturns first, ls.map withReturns, by rw [lines_crlf, hl, List.map_cons], ?_, ?_⟩
  · exact (delimiter_withReturns_iff hcut List.mem_cons_self).mpr hfirst
  · intro l hmem
    obtain ⟨m, hm, rfl⟩ := List.mem_map.mp hmem
    exact mt (delimiter_withReturns_iff hcut.of_cons hm).mp (hls m hm)

theorem Divides.crlf (h : Divides text header body first closing) :
    Divides (crlf text) (crlf header) (crlf body) (withReturns first) (withReturns closing) := by
  have hcut : Cut (first :: (lines header.toList ++ closing :: lines body.toList)) :=
    h.lines_eq ▸ cut_lines text.toList
  constructor
  case opens => exact (delimiter_withReturns_iff hcut (by simp)).mpr h.opens
  case closes => exact (delimiter_withReturns_iff hcut (by simp)).mpr h.closes
  case between =>
    intro l hmem
    rw [lines_crlf] at hmem
    obtain ⟨m, hm, rfl⟩ := List.mem_map.mp hmem
    exact mt (delimiter_withReturns_iff (cut_lines _) hm).mp (h.between m hm)
  case lines_eq => simp only [lines_crlf, h.lines_eq, List.map_cons, List.map_append]

/-- The outcome for a text with carriage returns is that for the text without them, with carriage
returns in what became of it. -/
theorem split_crlf (text : String) : split (crlf text) =
    (split text).map fun (header, body) => (header.map crlf, crlf body) := by
  rcases cases_of_lines text with h | h | ⟨header, body, first, closing, h⟩
  · rw [h.split_eq, h.crlf.split_eq]
    rfl
  · rw [h.split_eq, h.crlf.split_eq]
    rfl
  · rw [h.split_eq, h.crlf.split_eq]
    rfl

/-- Blanks follow the hyphens of both delimiters, and the closing one lacks its line feed. -/
example : split (crlf "--- \na: 1\n\n---\t") = .ok (some "a: 1\r\n\r\n", "") := by rfl

end FrontMatter

end SiteContent
