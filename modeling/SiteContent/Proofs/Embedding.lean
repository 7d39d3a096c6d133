import SiteContent.Proofs.Policies
import SiteContent.Proofs.Termination
import SiteContent.Validation.OnePass

/-! A run in one pass against the walk that knows neither paths nor earlier errors. From wherever it
starts, the run finds what the walk finds, and says so from there. -/

namespace SiteContent

/-- A diagnostic as it is reported by a run that started at a path. -/
def Diagnostic.errorFrom (path : String) (d : Diagnostic) : ValidationError :=
  .new (Location.renderFrom path d.location) d.cause

@[simp] theorem Diagnostic.errorFrom_here (path : String) (cause : Cause) :
    (⟨[], cause⟩ : Diagnostic).errorFrom path = .new path cause :=
  rfl

@[simp] theorem Diagnostic.errorFrom_cons (path : String) (s : Step) (l : Location)
    (cause : Cause) : (⟨s :: l, cause⟩ : Diagnostic).errorFrom path =
      (⟨l, cause⟩ : Diagnostic).errorFrom (Location.extendPath path s) :=
  rfl

@[simp] theorem Diagnostic.errorFrom_under (path : String) (s : Step) (d : Diagnostic) :
    (d.under s).errorFrom path = d.errorFrom (Location.extendPath path s) :=
  rfl

def Dict.insertAll {α : Type} (out : Dict α) (entries : List (String × α)) : Dict α :=
  entries.foldl (fun d e => d.insert e.1 e.2) out

theorem Dict.insertAll_append {α : Type} (out : Dict α) (es es' : List (String × α)) :
    out.insertAll (es ++ es') = (out.insertAll es).insertAll es' :=
  List.foldl_append

namespace OnePass

variable {α β : Type} {a : α} {b : β} {es es' : List ValidationError}

/-- From every list of errors a run gives one answer, and adds the same errors. -/
def Yields (m : OnePass α) (a : α) (es : List ValidationError) : Prop :=
  ∀ errors, m.run errors = some (a, errors ++ es)

theorem yields_pure (a : α) : Yields (pure a) a [] := by
  intro errors
  rw [List.append_nil]
  rfl

theorem Yields.bind {m : OnePass α} {f : α → OnePass β} (h : Yields m a es)
    (h' : Yields (f a) b es') : Yields (m >>= f) b (es ++ es') := by
  intro errors
  rw [StateT.run_bind, h errors, ← List.append_assoc]
  exact h' (errors ++ es)

theorem Yields.map {m : OnePass α} (h : Yields m a es) (f : α → β) :
    Yields (m >>= fun x => pure (f x)) (f a) es := by
  have hpure : Yields (m >>= fun x => pure (f x)) (f a) (es ++ []) := h.bind (yields_pure (f a))
  rwa [List.append_nil] at hpure

theorem yields_report (path : String) (cause : Cause) :
    Yields (report path cause) () [.new path cause] :=
  fun _ => rfl

theorem yields_reportIf (fault : Bool) (path : String) (cause : Cause) :
    Yields (reportIf fault path cause) () (if fault then [.new path cause] else []) := by
  cases fault with
  | true => exact yields_report path cause
  | false => exact yields_pure ()

/-- A run fills an object, and adds errors, as walks side by side would have it. -/
def Fills (run : Dict Json → OnePass (Dict Json)) (path : String)
    (ws : List (Walked Walk.Written)) : Prop :=
  ∀ out, Yields (run out) (out.insertAll (ws.flatMap (·.result)))
    ((ws.flatMap (·.diagnostics)).map (·.errorFrom path))

variable {run run' : Dict Json → OnePass (Dict Json)} {path : String}
  {ws ws' : List (Walked Walk.Written)}

theorem Fills.append (h : Fills run path ws) (h' : Fills run' path ws') :
    Fills (fun out => run out >>= run') path (ws ++ ws') := by
  intro out
  simp only [List.flatMap_append, List.map_append, Dict.insertAll_append]
  exact (h out).bind (h' _)

theorem Fills.assemble (h : Fills run path ws) :
    Yields (run [] >>= fun out => pure (Json.obj out)) (Walk.assemble ws).result
      ((Walk.assemble ws).diagnostics.map (·.errorFrom path)) := by
  have hresult : (Walk.assemble ws).result =
      .obj (Dict.insertAll [] (ws.flatMap (·.result))) := by
    simp only [Walk.assemble, Walked.map, Walked.all, Dict.ofList, Dict.insertAll,
      List.flatMap_def]
  rw [hresult]
  exact (h []).map Json.obj

theorem fills_undeclared (policy : Policy) (known : String → Bool) (path : String)
    (es : Dict Json) :
    Fills (undeclared policy known path es) path [Walk.undeclared policy known es] := by
  induction es with
  | nil =>
    intro out
    cases policy <;> exact yields_pure out
  | cons e es ih =>
    intro out
    obtain ⟨key, v⟩ := e
    by_cases hknown : known key = true
    · have hskip : Walk.undeclared policy known ((key, v) :: es) =
          Walk.undeclared policy known es := by
        simp [Walk.undeclared, hknown]
      rw [hskip]
      simpa only [undeclared, hknown, if_true] using ih out
    · cases policy with
      | preserve =>
        simpa [undeclared, hknown, Walk.undeclared, Walked.accept, Dict.insertAll] using
          ih (out.insert key v)
      | strip =>
        simpa [undeclared, hknown, Walk.undeclared, Walked.accept] using ih out
      | reject =>
        have hrest := (yields_report (Location.extendPath path (.key key)) .unknownField).bind
          (f := fun _ => undeclared .reject known path es out) (ih out)
        simpa [undeclared, hknown, Walk.undeclared] using hrest

theorem yields_tag (u : TaggedUnion Node) (path : String) (es out : Dict Json) :
    Yields (tag u path es out) (out.insertAll (Walk.tag u es).result, Walk.selected? u es)
      ((Walk.tag u es).diagnostics.map (·.errorFrom path)) := by
  have hreport : ∀ cause, Yields
      (report (Location.extendPath path (.key u.tag)) cause >>= fun _ =>
        pure (out, (none : Option (Variant Node))))
      (out, none) [(⟨[.key u.tag], cause⟩ : Diagnostic).errorFrom path] :=
    fun cause => (yields_report _ cause).map fun _ => (out, none)
  rw [tag, Walk.tag, Walk.selected?, Walk.tagOf?]
  cases es.get? u.tag with
  | none => exact hreport _
  | some v =>
    cases v with
    | str t =>
      by_cases ht : u.tags.isMember t = true
      · simp only [ht, if_true]
        exact yields_pure _
      · simp only [ht]
        exact hreport _
    | _ => exact hreport _

theorem fills_forbid (u : TaggedUnion Node) (c : Variant Node) (path : String) (es : Dict Json)
    (cs : List (Variant Node)) :
    Fills (fun out => forbid u c path es cs >>= fun _ => pure out) path
      ((cs.filter fun v => v.tag ≠ c.tag && es.contains v.payload.name).map fun v =>
        .report [] [.key v.payload.name] (.forbiddenField u.tag c.tag)) := by
  intro out
  induction cs with
  | nil => exact yields_pure out
  | cons v cs ih =>
    have hboth := (yields_reportIf (v.tag ≠ c.tag && es.contains v.payload.name)
      (Location.extendPath path (.key v.payload.name)) (.forbiddenField u.tag c.tag)).bind
      (f := fun _ => forbid u c path es cs >>= fun _ => pure out) ih
    simp only [forbid, bind_assoc, List.filter_cons]
    by_cases hv : (v.tag ≠ c.tag && es.contains v.payload.name) = true
    · simp only [hv, if_true] at hboth ⊢
      exact hboth
    · simpa only [hv, if_false, Bool.false_eq_true, List.nil_append] using hboth

/-- What is so of the values that an object has under fields. -/
def OnFields (T : Json → Kind Node → Prop) (es : Dict Json) (fs : List (Field Node)) : Prop :=
  ∀ f ∈ fs, ∀ v, es.get? f.name = some v → T v f.node.kind

/-- What a walker finds is what the walk finds, wherever the walker starts. -/
def Agrees (defs : Definitions) (policy : Policy) (walk : Walker) (v : Json) (k : Kind Node) :
    Prop :=
  ∀ path, Yields (walk path v k) (Walk.value defs policy v k).result
    ((Walk.value defs policy v k).diagnostics.map (·.errorFrom path))

variable {defs : Definitions} {policy : Policy} {walk : Walker} {es : Dict Json} {v : Json}
  {k : Kind Node}

theorem fills_fields (path : String) {fs : List (Field Node)}
    (h : OnFields (Agrees defs policy walk) es fs) :
    Fills (fields walk path es fs) path
      (fs.map (Walk.field (es.mapValues (Walk.value defs policy)))) := by
  induction fs with
  | nil =>
    intro out
    rw [fields]
    exact yields_pure out
  | cons f fs ih =>
    intro out
    have hrest := ih fun g hg => h g (List.mem_cons_of_mem _ hg)
    rw [fields, List.map_cons, Walk.field, Dict.get?_mapValues]
    cases hv : es.get? f.name with
    | some v =>
      have hvalue := h f List.mem_cons_self v hv (Location.extendPath path (.key f.name))
      have hboth := hvalue.bind
        (f := fun rebuilt => fields walk path es fs (out.insert f.name rebuilt)) (hrest _)
      simpa [Walked.map, Walked.under, Dict.insertAll, Function.comp_def] using hboth
    | none =>
      cases hd : f.node.default with
      | some d => simpa [Walked.accept, Dict.insertAll] using hrest (out.insert f.name d)
      | none =>
        have hboth := (yields_reportIf f.node.required (Location.extendPath path (.key f.name))
          .missingField).bind (f := fun _ => fields walk path es fs out) (hrest out)
        cases hr : f.node.required with
        | true => simpa [hr, Walked.report, Dict.insertAll] using hboth
        | false => simpa [hr, Walked.accept, Dict.insertAll] using hboth

theorem fills_payload (path : String) (u : TaggedUnion Node) (selected : Option (Variant Node))
    (h : OnFields (Agrees defs policy walk) es (selected.toList.map (·.payload))) :
    Fills (payload walk path u es selected) path
      ((selected.map (Walk.payloads u (es.mapValues (Walk.value defs policy)))).getD []) := by
  cases selected with
  | none =>
    intro out
    rw [payload]
    exact yields_pure out
  | some c =>
    have hpayload : Fills (fields walk path es [c.payload]) path
        [Walk.field (es.mapValues (Walk.value defs policy)) c.payload] :=
      fills_fields path h
    intro out
    rw [payload]
    simpa only [Option.map_some, Option.getD_some, Walk.payloads, Walk.contains_mapValues,
      List.singleton_append] using hpayload.append (fills_forbid u c path es u.variants) out

/-- The case that the tag selects is known only once the tag has been read. -/
theorem fills_tag (run : Option (Variant Node) → Dict Json → OnePass (Dict Json))
    (u : TaggedUnion Node) (h : Fills (run (Walk.selected? u es)) path ws) :
    Fills (fun out => tag u path es out >>= fun x => run x.2 x.1) path (Walk.tag u es :: ws) := by
  intro out
  simp only [List.flatMap_cons, List.map_append, Dict.insertAll_append]
  exact (yields_tag u path es out).bind (f := fun x => run x.2 x.1) (h _)

theorem yields_union (path : String) (u : TaggedUnion Node)
    (h : OnFields (Agrees defs policy walk) es (Walk.fieldsOn es (.oneOf u))) :
    Yields (union policy walk path u es)
      (Walk.union policy u es (es.mapValues (Walk.value defs policy))).result
      ((Walk.union policy u es (es.mapValues (Walk.value defs policy))).diagnostics.map
        (·.errorFrom path)) := by
  obtain ⟨hcommon, hselected⟩ := List.forall_mem_append.mp h
  have hfields := fills_fields path hcommon
  have hpayload := fills_payload path u (Walk.selected? u es) hselected
  have hafter := fills_tag (fun selected out => payload walk path u es selected out >>=
    undeclared policy u.knows path es) u
    (hpayload.append (fills_undeclared policy u.knows path es))
  rw [union, Walk.union]
  simpa only [bind_assoc, List.append_assoc, List.cons_append, List.nil_append,
    Walk.selected?] using (hfields.append hafter).assemble

theorem yields_elements (path : String) (items : Node) (vs : List Json)
    (h : ∀ v ∈ vs, Agrees defs policy walk v items.kind) (i : Nat) :
    let ws := (vs.zipIdx i).map fun (v, i) =>
      (Walk.value defs policy v items.kind).under (.index i)
    Yields (elements walk path items i vs) (ws.map (·.result))
      ((ws.flatMap (·.diagnostics)).map (·.errorFrom path)) := by
  induction vs generalizing i with
  | nil =>
    rw [elements]
    exact yields_pure []
  | cons v vs ih =>
    have hrest := (ih (fun w hw => h w (List.mem_cons_of_mem _ hw)) (i + 1)).map
      fun rest => (Walk.value defs policy v items.kind).result :: rest
    have hboth := (h v List.mem_cons_self (Location.extendPath path (.index i))).bind
      (f := fun rebuilt => elements walk path items (i + 1) vs >>= fun rest =>
        pure (rebuilt :: rest)) hrest
    rw [elements]
    simpa [Walked.under, Function.comp_def] using hboth

theorem yields_array (path : String) (items : Node) (nonEmpty : Bool) (vs : List Json)
    (h : ∀ v ∈ vs, Agrees defs policy walk v items.kind) :
    Yields (do
        reportIf (nonEmpty && vs.isEmpty) path .emptyField
        return .arr (← elements walk path items 0 vs))
      (Walk.array items nonEmpty (vs.map (Walk.value defs policy))).result
      ((Walk.array items nonEmpty (vs.map (Walk.value defs policy))).diagnostics.map
        (·.errorFrom path)) := by
  have hitems := (yields_elements path items vs h 0).map Json.arr
  have hboth := (yields_reportIf (nonEmpty && vs.isEmpty) path .emptyField).bind
    (f := fun _ => elements walk path items 0 vs >>= fun out => pure (Json.arr out)) hitems
  rw [Walk.array_eq]
  by_cases hempty : (nonEmpty && vs.isEmpty) = true
  · simp only [hempty, if_true] at hboth ⊢
    exact hboth
  · simp only [hempty] at hboth ⊢
    exact hboth

/-- A call agrees where the calls that it makes agree. -/
theorem agrees_call_of_descends (hk : k.target? = none)
    (h : ∀ w l, Walk.Descends v k w l → Agrees defs policy walk w l) :
    Agrees defs policy (call defs policy walk) v k := by
  intro path
  have hmismatch : Yields (report path (Walk.mismatch v k.expected) >>= fun _ => pure v) v
      [.new path (Walk.mismatch v k.expected)] :=
    (yields_report path _).map fun _ => v
  rw [Walk.value_of_target?_eq_none hk]
  cases k with
  | reference t => simp [Kind.target?] at hk
  | any => exact yields_pure v
  | boolean => cases v with
    | bool b => exact yields_pure _
    | _ => exact hmismatch
  | number => cases v with
    | num n => exact yields_pure _
    | _ => exact hmismatch
  | string nonEmpty => cases v with
    | str s =>
      have hreport := (yields_reportIf (nonEmpty && Text.allBlank s) path .emptyField).map
        fun _ => Json.str s
      simp only [Walk.answer, call]
      by_cases hs : (nonEmpty && Text.allBlank s) = true
      · simpa [hs, Walked.report] using hreport
      · simpa [hs, Walked.accept] using hreport
    | _ => exact hmismatch
  | enumeration e => cases v with
    | str s =>
      have hreport := (yields_reportIf (!e.isMember s) path (.invalidEnumValue e.members s)).map
        fun _ => Json.str s
      simp only [Walk.answer, call]
      by_cases hs : e.isMember s = true
      · simpa [hs, Walked.accept] using hreport
      · simpa [hs, Walked.report] using hreport
    | _ => exact hmismatch
  | object s => cases v with
    | obj es =>
      have hfields := fills_fields path fun f hf v hv => h v f.node.kind (.field hf hv)
      have hobject := (hfields.append (fills_undeclared policy s.contains path es)).assemble
      simp only [bind_assoc] at hobject
      exact hobject
    | _ => exact hmismatch
  | oneOf u => cases v with
    | obj es => exact yields_union path u fun f hf v hv => h v f.node.kind (.field hf hv)
    | _ => exact hmismatch
  | array items nonEmpty => cases v with
    | arr vs =>
      exact yields_array path items nonEmpty vs fun v hv => h v items.kind (.item hv)
    | _ => exact hmismatch

theorem agrees_call (hfinishes : Walk.Finishes defs v k)
    (h : ∀ w l, Walk.Calls defs (w, l) (v, k) → Agrees defs policy walk w l) :
    Agrees defs policy (call defs policy walk) v k := by
  by_cases hk : k.target? = none
  · exact agrees_call_of_descends hk fun w l hd => h w l (.descend hd)
  · cases k with
    | reference t =>
      intro path
      cases hn : defs.get? t with
      | none =>
        have hresolve : defs.resolve (.reference t) = .gap (.unresolved t) := by
          rw [Definitions.resolve]
          cases List.length defs <;> simp [Definitions.follow, hn]
        rw [Walk.value_eq, Walk.resolved, hresolve]
        simpa [call, hn] using yields_pure v
      | some n =>
        have hf : defs.Forwards (.reference t) n.kind := .intro hn
        rw [hfinishes.value_of_forwards hf policy]
        simpa only [call, hn] using h v n.kind (.forward hf) path
    | _ => simp [Kind.target?] at hk

section Answers

/-- A run answers only if something holds. -/
def Shows (m : OnePass α) (P : Prop) : Prop :=
  ∀ errors x, m.run errors = some x → P

variable {P Q : Prop} {m : OnePass α} {g : α → OnePass β}

theorem shows_of (h : P) : Shows m P :=
  fun _ _ _ => h

theorem Shows.imp (h : Shows m P) (himp : P → Q) : Shows m Q :=
  fun errors x hx => himp (h errors x hx)

theorem Shows.bind (h : Shows m P) (h' : ∀ a, Shows (g a) Q) : Shows (m >>= g) (P ∧ Q) := by
  intro errors x hx
  obtain ⟨y, hy, hg⟩ := Option.bind_eq_some_iff.mp hx
  exact ⟨h errors y hy, h' y.1 y.2 x hg⟩

theorem Shows.bind_left (h : Shows m P) : Shows (m >>= g) P :=
  (h.bind fun _ => shows_of trivial).imp And.left

theorem Shows.bind_right (h : ∀ a, Shows (g a) P) : Shows (m >>= g) P :=
  ((shows_of trivial).bind h).imp And.right

theorem Yields.shows_bind (hm : Yields m a es') (h : Shows (g a) P) :
    Shows (m >>= g) P := by
  intro errors x hx
  obtain ⟨y, hy, hg⟩ := Option.bind_eq_some_iff.mp hx
  obtain rfl := Option.some.inj ((hm errors).symm.trans hy)
  exact h _ x hg

end Answers

section Calls

variable {T : Json → Kind Node → Prop}

theorem OnFields.calls (h : OnFields T es (Walk.fieldsOn es k)) (hk : k.target? = none) (w : Json)
    (l : Kind Node) (hc : Walk.Calls defs (w, l) (.obj es, k)) : T w l := by
  obtain ⟨hf, hv⟩ := (Walk.calls_iff_descends hk).mp hc
  exact h _ hf w hv

variable (hwalk : ∀ path v k, Shows (walk path v k) (T v k))
include hwalk

theorem shows_fields (path : String) (fs : List (Field Node)) (out : Dict Json) :
    Shows (fields walk path es fs out) (OnFields T es fs) := by
  induction fs generalizing out with
  | nil => exact shows_of (List.forall_mem_nil _)
  | cons f fs ih =>
    rw [fields]
    cases hv : es.get? f.name with
    | some v =>
      have hfield : Shows (walk (Location.extendPath path (.key f.name)) v f.node.kind)
          (∀ w, es.get? f.name = some w → T w f.node.kind) :=
        (hwalk _ v f.node.kind).imp fun h w hw => Option.some.inj (hv.symm.trans hw) ▸ h
      exact (hfield.bind fun rebuilt => ih _).imp fun h => List.forall_mem_cons.mpr h
    | none =>
      have habsent : ∀ w, es.get? f.name = some w → T w f.node.kind :=
        fun w hw => nomatch hv.symm.trans hw
      have hrest : ∀ out, Shows (fields walk path es fs out) (OnFields T es (f :: fs)) :=
        fun out => (ih out).imp fun h => List.forall_mem_cons.mpr ⟨habsent, h⟩
      cases f.node.default with
      | some d => exact hrest _
      | none => exact Shows.bind_right fun _ => hrest out

theorem shows_elements (path : String) (items : Node) (i : Nat) (vs : List Json) :
    Shows (elements walk path items i vs) (∀ v ∈ vs, T v items.kind) := by
  induction vs generalizing i with
  | nil => exact shows_of (List.forall_mem_nil _)
  | cons v vs ih =>
    have hrest := fun rebuilt => (ih (i + 1)).bind_left (g := fun rest => pure (rebuilt :: rest))
    exact ((hwalk _ v items.kind).bind hrest).imp fun h => List.forall_mem_cons.mpr h

theorem shows_union (policy : Policy) (path : String) (u : TaggedUnion Node) :
    Shows (union policy walk path u es) (OnFields T es (Walk.fieldsOn es (.oneOf u))) := by
  have hpayload : ∀ out, Shows (payload walk path u es (Walk.selected? u es) out)
      (OnFields T es ((Walk.selected? u es).toList.map (·.payload))) := by
    intro out
    cases Walk.selected? u es with
    | none => exact shows_of (List.forall_mem_nil _)
    | some c => exact (shows_fields hwalk path [c.payload] out).bind_left
  have hafter := fun out => (yields_tag u path es out).shows_bind
    (g := fun x : Dict Json × Option (Variant Node) => payload walk path u es x.2 x.1 >>=
      fun out => undeclared policy u.knows path es out >>= fun out => pure (Json.obj out))
    (hpayload _).bind_left
  exact ((shows_fields hwalk path u.common.fields []).bind hafter).imp
    fun h => List.forall_mem_append.mpr h

/-- A call that answers has had an answer from each call that it makes. -/
theorem shows_call (defs : Definitions) (policy : Policy) (path : String) (v : Json)
    (k : Kind Node) :
    Shows (call defs policy walk path v k) (∀ w l, Walk.Calls defs (w, l) (v, k) → T w l) := by
  cases k with
  | string | boolean | number | enumeration | any =>
    refine shows_of fun w l hc => ?_
    cases (Walk.calls_iff_descends rfl).mp hc with
    | field hf _ => exact absurd hf List.not_mem_nil
  | object s => cases v with
    | obj es =>
      exact (shows_fields hwalk path s.fields []).bind_left.imp fun h => OnFields.calls h rfl
    | _ => exact shows_of fun w l hc => nomatch (Walk.calls_iff_descends rfl).mp hc
  | oneOf u => cases v with
    | obj es =>
      exact (shows_union hwalk policy path u).imp fun h => OnFields.calls h rfl
    | _ => exact shows_of fun w l hc => nomatch (Walk.calls_iff_descends rfl).mp hc
  | array items nonEmpty => cases v with
    | arr vs =>
      have hitems := (shows_elements hwalk path items 0 vs).bind_left
        (g := fun rest => pure (Json.arr rest))
      refine (Shows.bind_right fun _ : Unit => hitems).imp fun h w l hc => ?_
      cases (Walk.calls_iff_descends rfl).mp hc with
      | item hv => exact h w hv
    | _ => exact shows_of fun w l hc => nomatch (Walk.calls_iff_descends rfl).mp hc
  | reference t =>
    cases hn : defs.get? t with
    | none =>
      refine shows_of fun w l hc => ?_
      obtain ⟨n, hn', _⟩ := Walk.calls_reference_iff.mp hc
      simp [hn] at hn'
    | some n =>
      have hcall : call defs policy walk path v (.reference t) = walk path v n.kind := by
        simp only [call, hn]
      rw [hcall]
      refine (hwalk path v n.kind).imp fun h w l hc => ?_
      obtain ⟨m, hm, he⟩ := Walk.calls_reference_iff.mp hc
      obtain rfl := Option.some.inj (hn.symm.trans hm)
      obtain ⟨rfl, rfl⟩ := Prod.mk.inj he
      exact h

end Calls

section Depth

variable {path : String} {errors : List ValidationError} {depth deeper : Nat}

/-- An answer shows that the calls come to an end, and is the walk's own answer. No start and no
greater depth changes it. -/
theorem shows_agrees (hle : depth ≤ deeper) (path : String) (v : Json) (k : Kind Node) :
    Shows (value defs policy depth path v k)
      (Walk.Finishes defs v k ∧ Agrees defs policy (value defs policy deeper) v k) := by
  induction depth generalizing deeper path v k with
  | zero => exact fun errors x hx => nomatch hx
  | succ depth ih =>
    obtain ⟨below, rfl⟩ : ∃ below, deeper = below + 1 := ⟨deeper - 1, by omega⟩
    have hbelow : depth ≤ below := by omega
    have hcalls := shows_call (ih hbelow) defs policy path v k
    refine hcalls.imp fun h => ?_
    have hfinishes : Walk.Finishes defs v k := .intro _ fun x hc => (h x.1 x.2 hc).1
    exact ⟨hfinishes, agrees_call hfinishes fun w l hc => (h w l hc).2⟩

theorem Agrees.of_le (h : Agrees defs policy (value defs policy depth) v k) (hle : depth ≤ deeper) :
    Agrees defs policy (value defs policy deeper) v k :=
  (shows_agrees hle "" v k [] _ (h "" [])).2

/-- A call makes no more than finitely many calls. -/
theorem exists_calls (defs : Definitions) (v : Json) (k : Kind Node) :
    ∃ calls : List (Json × Kind Node), ∀ x, Walk.Calls defs x (v, k) → x ∈ calls := by
  let forwarded := (k.target?.bind (Dict.get? defs)).toList.map fun n => (v, n.kind)
  let descended := v.parts.flatMap fun w => k.parts.map fun p => (w, p.2.kind)
  refine ⟨forwarded ++ descended, fun x hc => List.mem_append.mpr ?_⟩
  cases hc with
  | forward hf =>
    obtain ⟨hn⟩ := hf
    exact .inl (List.mem_map.mpr ⟨_, Option.mem_toList.mpr hn, rfl⟩)
  | descend hd =>
    obtain ⟨e, m, hm, rfl⟩ := SchemaGraph.exists_part_of_descends hd
    exact .inr (List.mem_flatMap.mpr ⟨_, hd.mem_parts, List.mem_map.mpr ⟨_, hm, rfl⟩⟩)

theorem exists_depth_of_forall {α : Type} {T : α → Nat → Prop} {l : List α}
    (hmono : ∀ a n m, n ≤ m → T a n → T a m) (h : ∀ a ∈ l, ∃ n, T a n) : ∃ n, ∀ a ∈ l, T a n := by
  induction l with
  | nil => exact ⟨0, List.forall_mem_nil _⟩
  | cons a l ih =>
    obtain ⟨⟨n, hn⟩, hl⟩ := List.forall_mem_cons.mp h
    obtain ⟨m, hm⟩ := ih hl
    refine ⟨max n m, List.forall_mem_cons.mpr ⟨hmono a n _ (Nat.le_max_left n m) hn, ?_⟩⟩
    exact fun b hb => hmono b m _ (Nat.le_max_right n m) (hm b hb)

theorem exists_agrees (h : Walk.Finishes defs v k) :
    ∃ depth, Agrees defs policy (value defs policy depth) v k := by
  rw [Walk.Finishes] at h
  generalize hx : (v, k) = x at h
  induction h generalizing v k with
  | intro x hacc ih =>
    subst hx
    obtain ⟨calls, hcalls⟩ := exists_calls defs v k
    obtain ⟨depth, hdepth⟩ : ∃ depth, ∀ x ∈ calls, Walk.Calls defs x (v, k) →
        Agrees defs policy (value defs policy depth) x.1 x.2 := by
      refine exists_depth_of_forall (fun x n m hle h hc => (h hc).of_le hle) fun x _ => ?_
      by_cases hc : Walk.Calls defs x (v, k)
      · obtain ⟨depth, hdepth⟩ := ih x hc rfl
        exact ⟨depth, fun _ => hdepth⟩
      · exact ⟨0, fun h => absurd h hc⟩
    exact ⟨depth + 1, agrees_call (.intro _ hacc) fun w l hc => hdepth _ (hcalls _ hc) hc⟩

theorem returns_iff_of_finishes (h : Walk.Finishes defs v k) {x : Json × List ValidationError} :
    Returns defs policy path v k errors x ↔
      x = ((Walk.value defs policy v k).result,
        errors ++ (Walk.value defs policy v k).diagnostics.map (·.errorFrom path)) := by
  constructor
  · rintro ⟨depth, hx⟩
    have hagrees := (shows_agrees (Nat.le_refl depth) path v k errors x hx).2
    exact Option.some.inj (hx.symm.trans (hagrees path errors))
  · rintro rfl
    obtain ⟨depth, hagrees⟩ := exists_agrees h
    exact ⟨depth, hagrees path errors⟩

theorem exists_returns_iff_finishes :
    (∃ x, Returns defs policy path v k errors x) ↔ Walk.Finishes defs v k := by
  constructor
  · rintro ⟨x, depth, hx⟩
    exact (shows_agrees (Nat.le_refl depth) path v k errors x hx).1
  · exact fun h => ⟨_, (returns_iff_of_finishes h).mpr rfl⟩

/-- A walk that comes to an end from one start comes to an end from every start, whatever errors
stand before. What it returns and what it finds are the same from all of them, and each finding is
reported at the path of the start, extended by its own steps. -/
theorem returns_from_every_start {start : String} {earlier : List ValidationError}
    (h : ∃ x, Returns defs policy start v k earlier x) (path : String)
    (errors : List ValidationError) (x : Json × List ValidationError) :
    Returns defs policy path v k errors x ↔
      x = ((Walk.value defs policy v k).result,
        errors ++ (Walk.value defs policy v k).diagnostics.map (·.errorFrom path)) := by
  have hfinishes : Walk.Finishes defs v k := exists_returns_iff_finishes.mp h
  exact returns_iff_of_finishes hfinishes

/-- A call to action without its address, embedded by reference. -/
theorem returns_from_every_start_reference :
    ∃ (defs : Definitions) (v : Json) (k : Kind Node),
      (∃ x, Returns defs .reject "" v k [] x) ∧ ∀ path errors,
        Returns defs .reject path v k errors (.obj [("url", .str "")], errors ++
          [.new (Location.extendPath path (.key "url")) .emptyField,
            .new (Location.extendPath path (.key "href")) .unknownField]) := by
  let defs : Definitions := [("cta", ⟨.object ⟨[⟨"url", .text⟩]⟩, true, none, .empty⟩)]
  let v : Json := .obj [("href", .null), ("url", .str "")]
  have hreturns : ∃ x, Returns defs .reject "" v (.reference "cta") [] x :=
    ⟨_, 3, rfl⟩
  refine ⟨defs, v, .reference "cta", hreturns, fun path errors => ?_⟩
  exact (returns_from_every_start hreturns path errors _).mpr rfl

end Depth

end OnePass

/-- The validation of a collection is a run in one pass from the root. -/
theorem Collection.returns_iff (c : Collection) (policy : Policy) (raw : Json)
    {x : Json × List ValidationError} :
    OnePass.Returns c.definitions policy "" raw (.object c.schema) [] x ↔
      x = ((c.walk policy raw).result, (c.walk policy raw).diagnostics.map (·.toError)) := by
  have hfinishes : Walk.Finishes c.definitions raw (.object c.schema) :=
    c.wellFormed.finishes .root raw
  exact OnePass.returns_iff_of_finishes hfinishes

end SiteContent
