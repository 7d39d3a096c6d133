import SiteContent.FrontMatter

/-! How a text divides at its delimiter lines. Lines are told here without the function that cuts a
text into them; whatever the outcome, it is read off the lines, and nothing of the text is lost. -/

namespace SiteContent

namespace Text

/-- A line feed ends every line but the last, which may lack one, and stands nowhere else. -/
inductive Cut : List (List Char) → Prop
  | nil : Cut []
  | last {l : List Char} : l ≠ [] → '\n' ∉ l → Cut [l]
  | line {l : List Char} {ls : List (List Char)} :
      '\n' ∉ l → Cut ls → Cut ((l ++ ['\n']) :: ls)

variable {l cs ds bs : List Char} {ls ms : List (List Char)}

theorem lines_line (h : '\n' ∉ l) (cs : List Char) :
    lines (l ++ '\n' :: cs) = (l ++ ['\n']) :: lines cs := by
  induction l with
  | nil => simp [lines]
  | cons c l ih =>
    have hc : c ≠ '\n' := fun he => h (by simp [he])
    have hl : '\n' ∉ l := fun hm => h (List.mem_cons_of_mem _ hm)
    simp [lines, hc, ih hl]

theorem lines_last (hne : l ≠ []) (h : '\n' ∉ l) : lines l = [l] := by
  induction l with
  | nil => exact absurd rfl hne
  | cons c l ih =>
    have hc : c ≠ '\n' := fun he => h (by simp [he])
    have hl : '\n' ∉ l := fun hm => h (List.mem_cons_of_mem _ hm)
    by_cases hnil : l = []
    · simp [lines, hc, hnil]
    · simp [lines, hc, ih hnil hl]

theorem cut_lines (cs : List Char) : Cut (lines cs) := by
  induction cs with
  | nil => exact .nil
  | cons c cs ih =>
    by_cases hc : c = '\n'
    · have hline : lines (c :: cs) = ([] ++ ['\n']) :: lines cs := by simp [lines, hc]
      exact hline ▸ .line (by simp) ih
    · have hnot : ∀ {l : List Char}, '\n' ∉ l → '\n' ∉ c :: l := by simp [Ne.symm hc]
      rw [lines, if_neg hc]
      generalize lines cs = ls at ih ⊢
      cases ih with
      | nil => exact .last (by simp) (hnot (by simp))
      | last _ hl => exact .last (by simp) (hnot hl)
      | line hl hls => exact .line (hnot hl) hls

theorem Cut.lines_flatten (h : Cut ls) : lines ls.flatten = ls := by
  induction h with
  | nil => rfl
  | last hne hl => simp [lines_last hne hl]
  | line hl _ ih => simp [lines_line hl, ih]

/-- A text is cut into lines in one way. -/
theorem lines_eq_iff : lines cs = ls ↔ Cut ls ∧ ls.flatten = cs := by
  constructor
  · rintro rfl
    exact ⟨cut_lines cs, flatten_lines cs⟩
  · rintro ⟨hcut, rfl⟩
    exact hcut.lines_flatten

theorem Cut.of_append (h : Cut (ls ++ ms)) : Cut ls ∧ Cut ms := by
  induction ls with
  | nil => exact ⟨.nil, h⟩
  | cons l ls ih =>
    rw [List.cons_append] at h
    generalize hrest : ls ++ ms = rest at h
    cases h with
    | last hne hl =>
      obtain ⟨rfl, rfl⟩ := List.append_eq_nil_iff.mp hrest
      exact ⟨.last hne hl, .nil⟩
    | line hl hcut =>
      obtain ⟨hls, hms⟩ := ih (hrest ▸ hcut)
      exact ⟨.line hl hls, hms⟩

theorem Cut.of_cons (h : Cut (l :: ls)) : Cut ls := by
  have happend : Cut ([l] ++ ls) := h
  exact happend.of_append.2

/-- A text whose last line has ended. -/
def Ended (cs : List Char) : Prop :=
  cs = [] ∨ ∃ l, cs = l ++ ['\n']

theorem Ended.of_cons {c : Char} (h : Ended (c :: cs)) : Ended cs ∧ (cs = [] → c = '\n') := by
  rcases h with h | ⟨l, hl⟩
  · cases h
  · cases l with
    | nil =>
      obtain ⟨rfl, rfl⟩ := List.cons.inj hl
      exact ⟨.inl rfl, fun _ => rfl⟩
    | cons a l =>
      obtain ⟨_, rfl⟩ := List.cons.inj hl
      exact ⟨.inr ⟨l, rfl⟩, by simp⟩

theorem lines_append (h : Ended cs) (ds : List Char) : lines (cs ++ ds) = lines cs ++ lines ds := by
  induction cs with
  | nil => rfl
  | cons c cs ih =>
    obtain ⟨hcs, hlast⟩ := h.of_cons
    by_cases hc : c = '\n'
    · simp [lines, hc, ih hcs]
    · -- More of the line is to come, so that `c` joins a line that is there already.
      have hlines : lines cs ≠ [] := by
        intro hnil
        have hflatten := flatten_lines cs
        exact hc (hlast (by simpa [hnil] using hflatten.symm))
      obtain ⟨l, ls, hl⟩ := List.exists_cons_of_ne_nil hlines
      simp [lines, hc, ih hcs, hl]

theorem trimEnd_append_blanks (h : ∀ c ∈ bs, isBlank c = true) :
    trimEnd (cs ++ bs) = trimEnd cs := by
  have hbs : ∀ c ∈ bs.reverse, isBlank c = true := fun c hc => h c (List.mem_reverse.mp hc)
  rw [trimEnd, trimEnd, List.reverse_append, List.dropWhile_append_of_pos hbs]

theorem exists_eq_trimEnd_append (cs : List Char) :
    ∃ bs, cs = trimEnd cs ++ bs ∧ ∀ c ∈ bs, isBlank c = true := by
  refine ⟨(cs.reverse.takeWhile isBlank).reverse, ?_, fun c hc => ?_⟩
  · rw [trimEnd, ← List.reverse_append, List.takeWhile_append_dropWhile, List.reverse_reverse]
  · exact List.all_eq_true.mp List.all_takeWhile c (List.mem_reverse.mp hc)

end Text

namespace FrontMatter

open Text

/-- A line of three hyphens, but for blanks at its end. -/
def Delimiter (l : List Char) : Prop :=
  ∃ bs, l = ['-', '-', '-'] ++ bs ∧ ∀ c ∈ bs, isBlank c = true

variable {l first closing : List Char} {ls before after : List (List Char)}
  {text header body : String}

theorem isDelimiter_iff : isDelimiter l = true ↔ Delimiter l := by
  rw [isDelimiter, beq_iff_eq]
  constructor
  · intro h
    obtain ⟨bs, hl, hbs⟩ := exists_eq_trimEnd_append l
    exact ⟨bs, h ▸ hl, hbs⟩
  · rintro ⟨bs, rfl, hbs⟩
    rw [trimEnd_append_blanks hbs]
    decide

instance : DecidablePred Delimiter :=
  fun _ => decidable_of_iff _ isDelimiter_iff

theorem close_of_no_delimiter (h : ∀ l ∈ ls, ¬ Delimiter l) : close ls = .error .unterminated := by
  induction ls with
  | nil => rfl
  | cons l ls ih =>
    obtain ⟨hl, hls⟩ := List.forall_mem_cons.mp h
    simp [close, mt isDelimiter_iff.mp hl, ih hls, Except.map]

/-- The lines up to the first delimiter are the header, and those after it the body. -/
theorem close_of_delimiter (h : ∀ l ∈ before, ¬ Delimiter l) (hc : Delimiter closing) :
    close (before ++ closing :: after) = .ok (before.flatten, after.flatten) := by
  induction before with
  | nil => simp [close, isDelimiter_iff.mpr hc]
  | cons l before ih =>
    obtain ⟨hl, hbefore⟩ := List.forall_mem_cons.mp h
    simp [close, mt isDelimiter_iff.mp hl, ih hbefore, Except.map]

theorem first_delimiter (ls : List (List Char)) : (∀ l ∈ ls, ¬ Delimiter l) ∨
    ∃ before closing after, ls = before ++ closing :: after ∧ (∀ l ∈ before, ¬ Delimiter l) ∧
      Delimiter closing := by
  cases hf : ls.find? isDelimiter with
  | none =>
    exact .inl fun l hl hd => List.find?_eq_none.mp hf l hl (isDelimiter_iff.mpr hd)
  | some l =>
    obtain ⟨hl, before, after, rfl, hbefore⟩ := List.find?_eq_some_iff_append.mp hf
    have hnot : ∀ m ∈ before, ¬ Delimiter m := by
      intro m hm hd
      simpa [isDelimiter_iff.mpr hd] using hbefore m hm
    exact .inr ⟨before, l, after, rfl, hnot, isDelimiter_iff.mp hl⟩

/-- Between two delimiter lines of a text stand the lines of its header, and after them those of
its body. -/
structure Divides (text header body : String) (first closing : List Char) : Prop where
  opens : Delimiter first
  closes : Delimiter closing
  between : ∀ l ∈ lines header.toList, ¬ Delimiter l
  lines_eq : lines text.toList = first :: (lines header.toList ++ closing :: lines body.toList)

theorem Divides.toList_eq (h : Divides text header body first closing) :
    text.toList = first ++ header.toList ++ closing ++ body.toList := by
  rw [← flatten_lines text.toList, h.lines_eq]
  simp [flatten_lines]

theorem divides_of_lines (h : lines text.toList = first :: (before ++ closing :: after))
    (hd : Delimiter first) (hbefore : ∀ l ∈ before, ¬ Delimiter l) (hc : Delimiter closing) :
    Divides text (String.ofList before.flatten) (String.ofList after.flatten) first closing := by
  have hcut : Cut (first :: (before ++ closing :: after)) := h ▸ cut_lines text.toList
  obtain ⟨hheader, hrest⟩ := hcut.of_cons.of_append
  have hlines : lines before.flatten = before := hheader.lines_flatten
  constructor
  case opens => exact hd
  case closes => exact hc
  case between => simpa [hlines] using hbefore
  case lines_eq => simp [h, hlines, hrest.of_cons.lines_flatten]

/-- The text does not begin with a delimiter line. -/
def Unopened (text : String) : Prop :=
  ∀ l ∈ (lines text.toList).head?, ¬ Delimiter l

/-- The first line is a delimiter, and no other line is. -/
def Unclosed (text : String) : Prop :=
  ∃ first ls, lines text.toList = first :: ls ∧ Delimiter first ∧ ∀ l ∈ ls, ¬ Delimiter l

theorem Unopened.split_eq (h : Unopened text) : split text = .ok (none, text) := by
  rw [split]
  cases hl : lines text.toList with
  | nil => rfl
  | cons l ls =>
    have hnot : ¬ Delimiter l := h l (by simp [hl])
    simp [mt isDelimiter_iff.mp hnot]

theorem split_of_delimiter (h : lines text.toList = first :: ls) (hd : Delimiter first) :
    split text = (close ls).map fun (header, body) =>
      (some (String.ofList header), String.ofList body) := by
  simp [split, h, isDelimiter_iff.mpr hd]

theorem Unclosed.split_eq (h : Unclosed text) : split text = .error .unterminated := by
  obtain ⟨first, ls, hl, hd, hls⟩ := h
  rw [split_of_delimiter hl hd, close_of_no_delimiter hls]
  rfl

theorem Divides.split_eq (h : Divides text header body first closing) :
    split text = .ok (some header, body) := by
  rw [split_of_delimiter h.lines_eq h.opens, close_of_delimiter h.between h.closes,
    flatten_lines, flatten_lines]
  simp [Except.map]

theorem cases_of_lines (text : String) : Unopened text ∨ Unclosed text ∨
    ∃ header body first closing, Divides text header body first closing := by
  cases hl : lines text.toList with
  | nil => exact .inl (by simp [Unopened, hl])
  | cons first ls =>
    by_cases hd : Delimiter first
    · rcases first_delimiter ls with hls | ⟨before, closing, after, rfl, hbefore, hc⟩
      · exact .inr (.inl ⟨first, ls, hl, hd, hls⟩)
      · exact .inr (.inr ⟨_, _, first, closing, divides_of_lines hl hd hbefore hc⟩)
    · exact .inl (by simpa [Unopened, hl] using hd)

theorem split_eq_ok_none_iff : split text = .ok (none, body) ↔ body = text ∧ Unopened text := by
  constructor
  · intro hs
    rcases cases_of_lines text with h | h | ⟨_, _, _, _, h⟩
    · rw [h.split_eq] at hs
      obtain ⟨_, rfl⟩ := Prod.mk.inj (Except.ok.inj hs)
      exact ⟨rfl, h⟩
    · simp [h.split_eq] at hs
    · simp [h.split_eq] at hs
  · rintro ⟨rfl, h⟩
    exact h.split_eq

theorem split_eq_error_iff {e : ParseError} :
    split text = .error e ↔ e = .unterminated ∧ Unclosed text := by
  constructor
  · intro hs
    rcases cases_of_lines text with h | h | ⟨_, _, _, _, h⟩
    · simp [h.split_eq] at hs
    · rw [h.split_eq] at hs
      exact ⟨(Except.error.inj hs).symm, h⟩
    · simp [h.split_eq] at hs
  · rintro ⟨rfl, h⟩
    exact h.split_eq

theorem split_eq_ok_some_iff : split text = .ok (some header, body) ↔
    ∃ first closing, Divides text header body first closing := by
  constructor
  · intro hs
    rcases cases_of_lines text with h | h | ⟨_, _, first, closing, h⟩
    · simp [h.split_eq] at hs
    · simp [h.split_eq] at hs
    · rw [h.split_eq] at hs
      obtain ⟨hheader, rfl⟩ := Prod.mk.inj (Except.ok.inj hs)
      obtain rfl := Option.some.inj hheader
      exact ⟨first, closing, h⟩
  · rintro ⟨first, closing, h⟩
    exact h.split_eq

theorem divides_enclosed (hended : Ended header.toList)
    (hlines : ∀ l ∈ lines header.toList, ¬ Delimiter l) (body : String) :
    Divides ("---\n" ++ header ++ "---\n" ++ body) header body
      ['-', '-', '-', '\n'] ['-', '-', '-', '\n'] := by
  have hyphens : Delimiter ['-', '-', '-', '\n'] :=
    ⟨['\n'], rfl, List.forall_mem_singleton.mpr rfl⟩
  have hline : ∀ cs, lines (['-', '-', '-'] ++ '\n' :: cs) = ['-', '-', '-', '\n'] :: lines cs :=
    lines_line (by decide)
  have htext : ("---\n" ++ header ++ "---\n" ++ body).toList =
      ['-', '-', '-'] ++ '\n' :: (header.toList ++ (['-', '-', '-'] ++ '\n' :: body.toList)) := by
    simp
  constructor
  case opens => exact hyphens
  case closes => exact hyphens
  case between => exact hlines
  case lines_eq => rw [htext, hline, lines_append hended, hline]

/-- A text is left whole unless its first line is a delimiter; it is refused when no later line is
one; and otherwise it is the first line, the header, the first later delimiter and the body. -/
theorem split_decomposes :
    (∀ cs ls, lines cs = ls ↔ Cut ls ∧ ls.flatten = cs) ∧
    (∀ text b, split text = .ok (none, b) ↔ b = text ∧ Unopened text) ∧
    (∀ text e, split text = .error e ↔ e = .unterminated ∧ Unclosed text) ∧
    (∀ text h b, split text = .ok (some h, b) ↔
      ∃ first closing, Divides text h b first closing ∧
        text.toList = first ++ h.toList ++ closing ++ b.toList) ∧
    ∀ h b : String, Ended h.toList → (∀ l ∈ lines h.toList, ¬ Delimiter l) →
      split ("---\n" ++ h ++ "---\n" ++ b) = .ok (some h, b) := by
  refine ⟨fun _ _ => lines_eq_iff, fun _ _ => split_eq_ok_none_iff, fun _ _ => split_eq_error_iff,
    fun text h b => ?_, fun h b hended hlines => (divides_enclosed hended hlines b).split_eq⟩
  rw [split_eq_ok_some_iff]
  constructor
  · rintro ⟨first, closing, hd⟩
    exact ⟨first, closing, hd, hd.toList_eq⟩
  · rintro ⟨first, closing, hd, _⟩
    exact ⟨first, closing, hd⟩

/-- Four hyphens, or hyphens after a blank, do not close a header, and what looks like another one
belongs to the body. -/
theorem split_decomposes_enclosed : ∃ h b : String, Ended h.toList ∧
    (∀ l ∈ lines h.toList, ¬ Delimiter l) ∧
    split ("---\n" ++ h ++ "---\n" ++ b) = .ok (some h, b) := by
  have hended : Ended "a: 1\r\n----\n ---\n".toList := .inr ⟨"a: 1\r\n----\n ---".toList, rfl⟩
  have hlines : ∀ l ∈ lines "a: 1\r\n----\n ---\n".toList, ¬ Delimiter l := by decide
  obtain ⟨_, _, _, _, henclosed⟩ := split_decomposes
  exact ⟨_, "---\nb: 2\n---", hended, hlines, henclosed _ _ hended hlines⟩

/-- Blanks may follow the hyphens, and the closing line may lack its line feed. -/
example : split "--- \t\r\nx\n---\u00a0" = .ok (some "x\n", "") := by rfl

end FrontMatter

end SiteContent
