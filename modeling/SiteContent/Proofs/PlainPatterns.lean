import Mathlib.Data.List.Basic
import SiteContent.Glob.Match

/-! Patterns of plain characters and stars. Matching goes byte by byte, and a star may end inside a
character; yet such a pattern matches what it says by characters, because the first byte of a
character is never a later byte of another one. -/

namespace SiteContent.Glob

variable {c d : Char} {cs : List Char} {a s t x : List UInt8} {k : Rest} {ps : List Piece}

section Encoding

theorem toList_eq_data_toList (b : ByteArray) : b.toList = b.data.toList := by
  have hloop : ∀ i r, ByteArray.toList.loop b i r = r.reverse ++ b.data.toList.drop i := by
    intro i r
    fun_induction ByteArray.toList.loop b i r with
    | case1 i r hi ih =>
      have hlt : i < b.data.toList.length := by simpa using hi
      have hget : b.get! i = b.data.toList[i] := by simp [ByteArray.get!, hi]
      rw [ih, List.drop_eq_getElem_cons hlt, hget, List.reverse_cons, List.append_assoc]
      rfl
    | case2 i r hi =>
      have hle : b.data.toList.length ≤ i := by simpa using hi
      rw [List.drop_eq_nil_of_le hle, List.append_nil]
  exact hloop 0 []

theorem toList_toUTF8 (s : String) : s.toUTF8.toList = s.toList.flatMap String.utf8EncodeChar := by
  rw [toList_eq_data_toList, String.toUTF8_eq_toByteArray, ← String.utf8Encode_toList,
    List.utf8Encode, List.toList_data_toByteArray]

theorem bytes_eq (c : Char) : bytes c = String.utf8EncodeChar c := by
  rw [bytes, toList_toUTF8, String.toList_ofList, List.flatMap_singleton]

theorem toUTF8_eq_flatMap_bytes (s : String) : s.toUTF8.toList = s.toList.flatMap bytes := by
  rw [toList_toUTF8]
  exact List.flatMap_congr fun c _ => (bytes_eq c).symm

theorem bytes_ne_nil (c : Char) : bytes c ≠ [] := by
  rw [bytes_eq]
  exact String.utf8EncodeChar_ne_nil

/-- No character's bytes begin those of another one. -/
theorem eq_of_bytes_append (h : bytes c ++ s = bytes d ++ t) : c = d := by
  have hfirst : ∀ (c : Char) (s : List UInt8),
      (bytes c ++ s).toByteArray.utf8DecodeChar? 0 = some c := by
    intro c s
    rw [bytes_eq, List.toByteArray_append, ByteArray.utf8DecodeChar?_utf8EncodeChar_append]
  have hc := hfirst c s
  rw [h, hfirst d t] at hc
  exact (Option.some.inj hc).symm

/-- The first byte of a character is not a later byte of another one. -/
theorem eq_nil_of_bytes_eq (hd : bytes d = x ++ a) (ha : a ≠ [])
    (hc : bytes c ++ s = a ++ t) : x = [] := by
  obtain ⟨b, a, rfl⟩ := List.exists_cons_of_ne_nil ha
  obtain ⟨e, es, he⟩ := List.exists_cons_of_ne_nil (bytes_ne_nil c)
  have hb : b = e := by
    rw [he] at hc
    exact (List.cons.inj hc).1.symm
  have hfirst : b.IsUTF8FirstByte := by
    have hzero := @UInt8.isUTF8FirstByte_getElem_zero_utf8EncodeChar c
    simpa [← bytes_eq, he, hb] using hzero
  have hlt : x.length < (String.utf8EncodeChar d).length := by
    rw [← bytes_eq, hd]
    simp
  have hget : (String.utf8EncodeChar d)[x.length] = b := by
    simp [← bytes_eq, hd]
  rw [← hget, UInt8.isUTF8FirstByte_getElem_utf8EncodeChar] at hfirst
  exact List.eq_nil_of_length_eq_zero hfirst

/-- The bytes of a character can be cut out of a text only where the character stands. -/
theorem exists_of_flatMap_bytes_eq (h : cs.flatMap bytes = x ++ (bytes c ++ t)) :
    ∃ l r, cs = l ++ c :: r ∧ l.flatMap bytes = x ∧ r.flatMap bytes = t := by
  induction cs generalizing x with
  | nil =>
    have hnil : bytes c = [] := by
      simp only [List.flatMap_nil, List.nil_eq, List.append_eq_nil_iff] at h
      exact h.2.1
    exact absurd hnil (bytes_ne_nil c)
  | cons d cs ih =>
    rw [List.flatMap_cons] at h
    rcases List.append_eq_append_iff.mp h with ⟨a, rfl, hrest⟩ | ⟨a, hd, hrest⟩
    · obtain ⟨l, r, rfl, rfl, rfl⟩ := ih hrest
      exact ⟨d :: l, r, rfl, rfl, rfl⟩
    · by_cases ha : a = []
      · subst ha
        rw [List.append_nil] at hd
        obtain ⟨l, r, rfl, hl, rfl⟩ := ih (x := []) hrest.symm
        exact ⟨d :: l, r, rfl, by simp [hl, hd], rfl⟩
      · obtain rfl := eq_nil_of_bytes_eq hd ha hrest
        obtain rfl : a = bytes d := hd.symm
        obtain rfl := eq_of_bytes_append hrest
        exact ⟨[], cs, rfl, rfl, (List.append_cancel_left hrest).symm⟩

theorem flatMap_bytes_eq_nil : cs.flatMap bytes = [] ↔ cs = [] := by
  cases cs with
  | nil => simp
  | cons c cs => simp [bytes_ne_nil]

theorem separator_mem_flatMap_bytes : separator ∈ cs.flatMap bytes ↔ '/' ∈ cs := by
  have hslash : bytes '/' = [separator] := bytes_eq '/'
  constructor
  · intro h
    obtain ⟨x, t, hxt⟩ := List.append_of_mem h
    have hcut : cs.flatMap bytes = x ++ (bytes '/' ++ t) := by rw [hxt, hslash]; rfl
    obtain ⟨l, r, rfl, _⟩ := exists_of_flatMap_bytes_eq hcut
    simp
  · intro h
    exact List.mem_flatMap.mpr ⟨'/', h, by simp [hslash]⟩

end Encoding

section Plain

def Piece.IsPlain : Piece → Prop
  | .literal _ | .run => True
  | _ => False

/-- What plain pieces match, told by characters: a star is any run of characters but separators. -/
inductive Spells : List Piece → List Char → Prop
  | nil : Spells [] []
  | literal {c : Char} {ps : List Piece} {cs : List Char} :
      Spells ps cs → Spells (.literal c :: ps) (c :: cs)
  | run {r : List Char} {ps : List Piece} {cs : List Char} :
      '/' ∉ r → Spells ps cs → Spells (.run :: ps) (r ++ cs)

theorem strip_iff {bs : List UInt8} : strip bs k s = true ↔ ∃ t, s = bs ++ t ∧ k t = true := by
  induction bs generalizing s with
  | nil => simp [strip]
  | cons b bs ih =>
    cases s with
    | nil => simp [strip]
    | cons e s =>
      rw [strip, Bool.and_eq_true, beq_iff_eq, ih]
      constructor
      · rintro ⟨rfl, t, rfl, ht⟩
        exact ⟨t, rfl, ht⟩
      · rintro ⟨t, hs, ht⟩
        obtain ⟨rfl, rfl⟩ := List.cons.inj hs
        exact ⟨rfl, t, rfl, ht⟩

theorem afterRun_iff : afterRun k s = true ↔
    ∃ r t, s = r ++ t ∧ separator ∉ r ∧ k t = true := by
  induction s with
  | nil => simp [afterRun]
  | cons b s ih =>
    rw [afterRun, Bool.or_eq_true, Bool.and_eq_true, bne_iff_ne, ih]
    constructor
    · rintro (hk | ⟨hb, r, t, rfl, hr, hk⟩)
      · exact ⟨[], b :: s, rfl, by simp, hk⟩
      · exact ⟨b :: r, t, rfl, by simp [Ne.symm hb, hr], hk⟩
    · rintro ⟨r, t, hs, hr, hk⟩
      cases r with
      | nil => exact .inl (by simpa [hs] using hk)
      | cons e r =>
        obtain ⟨rfl, rfl⟩ := List.cons.inj hs
        rw [List.mem_cons, not_or] at hr
        exact .inr ⟨Ne.symm hr.1, r, t, rfl, hr.2, hk⟩

theorem Spells.sequence_eq_true (h : Spells ps cs) :
    sequence (fun s => s.isEmpty) ps (cs.flatMap bytes) = true := by
  induction h with
  | nil => rfl
  | literal _ ih => exact strip_iff.mpr ⟨_, List.flatMap_cons, ih⟩
  | run hr _ ih =>
    exact afterRun_iff.mpr ⟨_, _, List.flatMap_append, mt separator_mem_flatMap_bytes.mp hr, ih⟩

/-- The match begins after bytes that belong to no separator, and may begin inside a character. What
the pieces match is then the rest of the text from some character on. -/
theorem exists_spells (hps : ∀ p ∈ ps, p.IsPlain) (hcs : cs.flatMap bytes = x ++ t)
    (hx : separator ∉ x) (h : sequence (fun s => s.isEmpty) ps t = true) :
    ∃ l r, cs = l ++ r ∧ l.flatMap bytes <+: x ∧ Spells ps r := by
  induction ps generalizing cs x t with
  | nil =>
    obtain rfl : t = [] := List.isEmpty_iff.mp h
    exact ⟨cs, [], by simp, by simp [hcs], .nil⟩
  | cons p ps ih =>
    obtain ⟨hp, hrest⟩ := List.forall_mem_cons.mp hps
    cases p with
    | literal c =>
      obtain ⟨t, rfl, ht⟩ := strip_iff.mp h
      obtain ⟨l, r, rfl, hl, hr⟩ := exists_of_flatMap_bytes_eq hcs
      -- From a whole character on, nothing is left over before the match.
      obtain ⟨l', r', rfl, hl', hspells⟩ := ih hrest (x := []) hr (by simp) ht
      obtain rfl := flatMap_bytes_eq_nil.mp (List.prefix_nil.mp hl')
      exact ⟨l, c :: r', rfl, by simp [hl], .literal hspells⟩
    | run =>
      obtain ⟨r, t, rfl, hr, ht⟩ := afterRun_iff.mp h
      rw [← List.append_assoc] at hcs
      have hxr : separator ∉ x ++ r := by simp [hx, hr]
      obtain ⟨l', r', rfl, hl', hspells⟩ := ih hrest hcs hxr ht
      have hslash : '/' ∉ l' := fun hmem =>
        hxr (hl'.subset (separator_mem_flatMap_bytes.mpr hmem))
      exact ⟨[], l' ++ r', rfl, by simp, .run hslash hspells⟩
    | _ => exact hp.elim

/-- Plain characters match themselves, and a star matches what lies within one component. -/
theorem isMatch_iff_spells {g : Glob} (hg : ∀ p ∈ g.pieces, p.IsPlain) (path : String) :
    g.isMatch path = true ↔ Spells g.pieces path.toList := by
  have hmatch : g.isMatch path = sequence (fun s => s.isEmpty) g.pieces path.toUTF8.toList := by
    rw [isMatch]
    split
    · rename_i hleading
      exact False.elim (hg .leading (by simp [hleading]))
    · rfl
  rw [hmatch, toUTF8_eq_flatMap_bytes]
  constructor
  · intro h
    obtain ⟨l, r, hcs, hl, hspells⟩ := exists_spells hg (x := []) rfl (by simp) h
    obtain rfl := flatMap_bytes_eq_nil.mp (List.prefix_nil.mp hl)
    rwa [hcs]
  · exact Spells.sequence_eq_true

theorem spells_literals_append (l : List Char) : Spells (l.map .literal ++ ps) cs ↔
    ∃ r, cs = l ++ r ∧ Spells ps r := by
  induction l generalizing cs with
  | nil => simp
  | cons c l ih =>
    constructor
    · rintro (_ | h)
      obtain ⟨r, rfl, hr⟩ := ih.mp h
      exact ⟨r, rfl, hr⟩
    · rintro ⟨r, rfl, hr⟩
      exact .literal (ih.mpr ⟨r, rfl, hr⟩)

theorem spells_literals (l : List Char) : Spells (l.map .literal) cs ↔ cs = l := by
  have h : Spells (l.map .literal ++ []) cs ↔ ∃ r, cs = l ++ r ∧ Spells [] r :=
    spells_literals_append l
  rw [List.append_nil] at h
  rw [h]
  constructor
  · rintro ⟨_, rfl, ⟨⟩⟩
    exact List.append_nil l
  · rintro rfl
    exact ⟨[], by simp, .nil⟩

theorem spells_run : Spells (.run :: ps) cs ↔ ∃ l r, cs = l ++ r ∧ '/' ∉ l ∧ Spells ps r := by
  constructor
  · rintro ⟨⟩
    exact ⟨_, _, rfl, ‹_›, ‹_›⟩
  · rintro ⟨l, r, rfl, hl, hr⟩
    exact .run hl hr

end Plain

end SiteContent.Glob
