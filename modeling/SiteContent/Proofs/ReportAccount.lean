import SiteContent.Proofs.Loading
import SiteContent.Report

/-! A report accounts for an outcome: it has one entry for each result, in the order of paths and
collections, and its counts and its verdict are those of the outcome. Nothing is asked of the
outcome; its results may come in any order, and more than once. -/

namespace SiteContent

open Outcome (subject)

namespace Report

/-- What an entry tells of a result: all but the body and the document of an accepted file. -/
inductive Entry.Tells : Entry → Except Rejected Accepted → Prop
  | valid {a : Accepted} :
      Tells ⟨a.path, a.collection, .valid, some a.checksum, [], none⟩ (.ok a)
  | invalid {path collection : String} {checksum : Option String} {es : List ValidationError} :
      Tells ⟨path, collection, .invalid, checksum, es, none⟩
        (.error ⟨path, collection, checksum, .invalid es⟩)
  | unparsable {path collection message : String} {checksum : Option String} :
      Tells ⟨path, collection, .unparsable, checksum, [], some message⟩
        (.error ⟨path, collection, checksum, .unparsable message⟩)
  | unreadable {path collection message : String} {checksum : Option String} :
      Tells ⟨path, collection, .unreadable, checksum, [], some message⟩
        (.error ⟨path, collection, checksum, .unreadable message⟩)

/-- A report says of an outcome what it is. Its entries are those of the results by path and
collection; of equal ones the accepted come first, and then each in its order. -/
structure AccountsFor (r : Report) (o : Outcome) : Prop where
  entries : ∃ rs, StablySorted (fun x => toLex (subject x)) o.entries rs ∧
    List.Forall₂ Entry.Tells r.entries rs
  unmatched : r.unmatched = o.unmatched
  total : r.summary.total = r.entries.length
  total_eq_add : r.summary.total = r.summary.valid + r.summary.invalid
  valid : r.summary.valid = o.accepted.length
  invalid : r.summary.invalid = r.failures.length
  unmatched_length : r.summary.unmatched = o.unmatched.length
  isSuccess_iff_failures : r.isSuccess = true ↔ r.failures = []
  isSuccess_iff_outcome : r.isSuccess = true ↔ o.isSuccess = true

def Entry.ofResult : Except Rejected Accepted → Entry
  | .ok a => .ofAccepted a
  | .error r => .ofRejected r

theorem Entry.tells_ofResult (x : Except Rejected Accepted) : (Entry.ofResult x).Tells x := by
  cases x with
  | ok a => exact .valid
  | error r =>
    obtain ⟨path, collection, checksum, reason⟩ := r
    cases reason with
    | invalid es => exact .invalid
    | unparsable m => exact .unparsable
    | unreadable m => exact .unreadable

namespace Entry.Tells

variable {e : Entry} {x : Except Rejected Accepted}

theorem subject_eq (h : e.Tells x) : subject x = (e.path, e.collection) := by
  cases h <;> rfl

theorem status_eq_valid_iff (h : e.Tells x) : e.status = .valid ↔ ∃ a, x = .ok a := by
  cases h <;> simp

end Entry.Tells

variable {now dir : String} {o : Outcome}

/-- Results are sorted by what their entries show of them. -/
theorem entries_ofOutcome : (ofOutcome now dir o).entries =
    (o.entries.mergeSort fun x y => entryLe (subject x) (subject y)).map Entry.ofResult := by
  have hsubject := fun x => (Entry.tells_ofResult x).subject_eq
  have hentries : o.accepted.map Entry.ofAccepted ++ o.rejected.map Entry.ofRejected =
      o.entries.map Entry.ofResult := by
    simp only [Outcome.entries, List.map_append, List.map_map]
    rfl
  rw [List.map_mergeSort (s := fun a b => entryLe (a.path, a.collection) (b.path, b.collection))]
  · simp only [ofOutcome, hentries]
  · intro x _ y _
    rw [hsubject, hsubject]

theorem exists_tells_ofOutcome (now dir : String) (o : Outcome) :
    ∃ xs, StablySorted (fun x => toLex (subject x)) o.entries xs ∧
      List.Forall₂ Entry.Tells (ofOutcome now dir o).entries xs := by
  have hsorted := stablySorted_mergeSort (fun x => toLex (subject x))
    (fun x y => entryLe_iff) o.entries
  refine ⟨_, hsorted, ?_⟩
  rw [entries_ofOutcome, List.forall₂_map_left_iff, List.forall₂_same]
  exact fun x _ => Entry.tells_ofResult x

theorem length_failures_ofOutcome :
    (ofOutcome now dir o).failures.length = o.rejected.length := by
  have hstatus := fun x => (Entry.tells_ofResult x).status_eq_valid_iff
  have hperm := o.entries.mergeSort_perm fun x y => entryLe (subject x) (subject y)
  rw [failures, entries_ofOutcome, ← List.countP_eq_length_filter, List.countP_map,
    hperm.countP_eq, Outcome.entries, List.countP_append]
  simp [List.countP_map, Function.comp_def, hstatus]

/-- A report accounts for its outcome, whatever that is. -/
theorem ofOutcome_accountsFor (now dir : String) (o : Outcome) :
    (ofOutcome now dir o).AccountsFor o := by
  have hfailures : (ofOutcome now dir o).failures.length = o.rejected.length :=
    length_failures_ofOutcome
  have hentries : (ofOutcome now dir o).entries.length =
      o.accepted.length + o.rejected.length := by
    simp [entries_ofOutcome, Outcome.entries]
  have htotal : (ofOutcome now dir o).summary.total = o.accepted.length + o.rejected.length := by
    simp [ofOutcome]
  have hsuccess : (ofOutcome now dir o).isSuccess = true ↔ o.rejected.length = 0 := by
    simp [isSuccess, ofOutcome]
  constructor
  case entries => exact exists_tells_ofOutcome now dir o
  case unmatched => rfl
  case total => rw [htotal, hentries]
  case total_eq_add => exact htotal
  case valid => rfl
  case invalid => exact hfailures.symm
  case unmatched_length => rfl
  case isSuccess_iff_failures => rw [hsuccess, ← hfailures, List.length_eq_zero_iff]
  case isSuccess_iff_outcome => simp [hsuccess, Outcome.isSuccess]

end Report

end SiteContent
