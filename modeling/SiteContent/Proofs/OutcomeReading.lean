import SiteContent.Proofs.SchemaReading
import SiteContent.Report

/-! Reading outcomes and reports back from their JSON form. The cause of an error lies among the
entries of the error, so that its own keys must not be those around it; what was left out as absent
or empty is read as that. -/

namespace SiteContent

open Record

section Parts

variable {es : Dict Json} {key : String}

theorem read_optional_string {o : Option String} (h : es.get? key = o.map Json.str) :
    (Record.optional key .string).read es = .ok o := by
  cases o with
  | none => exact read_optional_absent h
  | some s => exact read_optional h (by simp) rfl

theorem Decoder.dict_json (es : Dict Json) : dict json (.obj es) = .ok es := by
  have h : dict json (Json.ofDict id es) = .ok (es.mapValues id) :=
    dict_ofDict es fun _ _ => rfl
  have hid : es.mapValues id = es := List.map_id es
  rwa [Json.ofDict, hid] at h

theorem Decoder.count_int (n : Nat) : count (.num (.int n)) = .ok n := by
  simp [count]

theorem Decoder.list_map {α : Type} {d : Decoder α} {encode : α → Json}
    (h : ∀ a, d (encode a) = .ok a) (as : List α) : list d (.arr (as.map encode)) = .ok as := by
  have hmap : list d (.arr (as.map encode)) = .ok (as.map id) := each_map fun a _ => h a
  rwa [List.map_id] at hmap

end Parts

namespace Cause

/-- A cause comes back from any entries that hold its own under their keys. -/
theorem tagged_entries {c : Cause} {es : Dict Json}
    (hes : ∀ key ∉ ["path", "detail"], es.get? key = Dict.get? c.entries key) :
    tagged "kind" (.sharedTag tags) record es = .ok c := by
  have hkind := hes "kind" (by decide)
  cases c with
  | unknownCollection name =>
    exact tagged_eq_ok hkind rfl
      (read_map unknownCollection (read_required (hes "name" (by decide)) rfl))
  | missingField => exact tagged_eq_ok hkind rfl read_pure
  | typeMismatch expected actual =>
    exact tagged_eq_ok hkind rfl
      (read_seq (read_map typeMismatch (read_required (hes "expected" (by decide)) rfl))
        (read_required (hes "actual" (by decide)) rfl))
  | invalidEnumValue allowed actual =>
    have hallowed := read_required (hes "allowed" (by decide)) (Decoder.list_string allowed)
    exact tagged_eq_ok hkind rfl
      (read_seq (read_map invalidEnumValue hallowed)
        (read_required (hes "actual" (by decide)) rfl))
  | emptyField => exact tagged_eq_ok hkind rfl read_pure
  | forbiddenField tag value =>
    exact tagged_eq_ok hkind rfl
      (read_seq (read_map forbiddenField (read_required (hes "tag" (by decide)) rfl))
        (read_required (hes "value" (by decide)) rfl))
  | unknownField => exact tagged_eq_ok hkind rfl read_pure

theorem get?_entries (c : Cause) : ∀ key ∈ ["path", "detail"], Dict.get? c.entries key = none := by
  cases c <;> simp [entries, Dict.get?]

end Cause

namespace ValidationError

theorem decode_encode (e : ValidationError) : decode e.encode = .ok e := by
  have hdetail : Dict.get? e.encode.entries "detail" = some (.str e.detail) := by
    simp [encode, Json.entries, Dict.get?, Dict.get?_append, e.cause.get?_entries]
  have hcause : tagged "kind" (.sharedTag Cause.tags) Cause.record e.encode.entries =
      .ok e.cause := by
    refine Cause.tagged_entries fun key hkey => ?_
    simp only [List.mem_cons, List.not_mem_nil, or_false, not_or, ← ne_eq] at hkey
    simp [encode, Json.entries, Dict.get?_append, Dict.get?, hkey.1.symm, hkey.2.symm]
  exact decodeObject_obj (read_seq (read_seq (read_map mk (read_required rfl rfl))
    (read_shared hcause)) (read_required hdetail rfl))

theorem list_encodeAll (es : List ValidationError) :
    Decoder.list decode (encodeAll es) = .ok es :=
  Decoder.list_map decode_encode es

end ValidationError

theorem Document.decode_encode (d : Document) : decode d.encode = .ok d :=
  decode_obj (read_seq (read_map mk (read_required rfl rfl))
    (read_required rfl (Decoder.dict_json d.fields)))

theorem Accepted.decode_encode (a : Accepted) : decode a.encode = .ok a := by
  have hbody : Dict.get? a.encode.entries "body" = a.body.map Json.str := by
    simp [encode, Json.entries, Dict.get?_append, Json.get?_entryOfOption, Dict.get?]
  have hdocument : Dict.get? a.encode.entries "document" = some a.document.encode := by
    simp [encode, Json.entries, Dict.get?_append, Json.get?_entryOfOption, Dict.get?]
  exact decode_obj (read_seq (read_seq (read_seq (read_map mk (read_required rfl rfl))
    (read_required rfl rfl)) (read_optional_string hbody))
    (read_required hdocument a.document.decode_encode))

theorem Refusal.decode_encode (r : Refusal) : decode r.encode = .ok r := by
  have hread : tagged "kind" (.tag tags) record r.encode.entries = .ok r →
      decode r.encode = .ok r := by
    cases r <;> exact id
  apply hread
  cases r with
  | unreadable m => exact tagged_eq_ok rfl rfl (read_map unreadable (read_required rfl rfl))
  | unparsable m => exact tagged_eq_ok rfl rfl (read_map unparsable (read_required rfl rfl))
  | invalid errors =>
    exact tagged_eq_ok rfl rfl
      (read_map invalid (read_required rfl (ValidationError.list_encodeAll errors)))

theorem Rejected.decode_encode (r : Rejected) : decode r.encode = .ok r := by
  have hchecksum : Dict.get? r.encode.entries "checksum" = r.checksum.map Json.str := by
    simp [encode, Json.entries, Dict.get?_append, Json.get?_entryOfOption, Dict.get?]
  have hreason : Dict.get? r.encode.entries "reason" = some r.reason.encode := by
    simp [encode, Json.entries, Dict.get?_append, Json.get?_entryOfOption, Dict.get?]
  exact decode_obj (read_seq (read_seq (read_seq (read_map mk (read_required rfl rfl))
    (read_required rfl rfl)) (read_optional_string hchecksum))
    (read_required hreason r.reason.decode_encode))

theorem Outcome.decode_encode (o : Outcome) : decode o.encode = .ok o := by
  have haccepted := Decoder.list_map Accepted.decode_encode o.accepted
  have hrejected := Decoder.list_map Rejected.decode_encode o.rejected
  exact decode_obj (read_seq (read_seq (read_map mk (read_required rfl haccepted))
    (read_required rfl hrejected)) (read_required rfl (Decoder.list_string o.unmatched)))

namespace Report

theorem Status.decode_literal (s : Status) : decode (.str s.literal) = .ok s := by
  cases s <;> rfl

theorem Summary.decode_encode (s : Summary) : decode s.encode = .ok s :=
  decode_obj (read_seq (read_seq (read_seq
    (read_map mk (read_required rfl (Decoder.count_int s.total)))
    (read_required rfl (Decoder.count_int s.valid)))
    (read_required rfl (Decoder.count_int s.invalid)))
    (read_required rfl (Decoder.count_int s.unmatched)))

theorem Entry.decode_encode (e : Entry) : decode e.encode = .ok e := by
  have hchecksum : Dict.get? e.encode.entries "checksum" = e.checksum.map Json.str := by
    simp [encode, Json.entries, Dict.get?_append, Json.get?_entryOfOption, Json.get?_entryIf,
      Dict.get?]
  have herrors : Dict.get? e.encode.entries "errors" =
      Dict.get? (Json.entryIf (!e.errors.isEmpty) "errors" (ValidationError.encodeAll e.errors))
        "errors" := by
    simp [encode, Json.entries, Dict.get?_append, Json.get?_entryOfOption, Dict.get?]
  have hmessage : Dict.get? e.encode.entries "message" = e.message.map Json.str := by
    simp [encode, Json.entries, Dict.get?_append, Json.get?_entryOfOption, Json.get?_entryIf,
      Dict.get?]
  exact decode_obj (read_seq (read_seq (read_seq (read_seq (read_seq
    (read_map mk (read_required rfl rfl)) (read_required rfl rfl))
    (read_required rfl e.status.decode_literal)) (read_optional_string hchecksum))
    (read_unlessEmpty e.errors herrors (ValidationError.list_encodeAll e.errors) id))
    (read_optional_string hmessage))

theorem decode_encode (r : Report) : decode r.encode = .ok r := by
  have hentries := Decoder.list_map Entry.decode_encode r.entries
  have hunmatched := Decoder.list_string r.unmatched
  exact decode_obj (read_seq (read_seq (read_seq (read_seq (read_seq
    (read_map mk (read_required rfl rfl)) (read_required rfl rfl)) (read_required rfl rfl))
    (read_required rfl r.summary.decode_encode)) (read_required rfl hentries))
    (read_unlessEmpty r.unmatched rfl hunmatched id))

end Report

/-- What a run over a content directory has made of the files, and the report about it, survive
being written down. -/
theorem outcome_and_report_read_back (a : Accepted) (r : Rejected) (o : Outcome) (p : Report) :
    Accepted.decode a.encode = .ok a ∧ Rejected.decode r.encode = .ok r ∧
      Outcome.decode o.encode = .ok o ∧ Report.decode p.encode = .ok p :=
  ⟨a.decode_encode, r.decode_encode, o.decode_encode, p.decode_encode⟩

end SiteContent
