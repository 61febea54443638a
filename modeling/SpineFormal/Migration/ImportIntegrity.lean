import SpineFormal.Migration.ImportState

/-!
# What an import writes

Whatever happens, the destination has received whole slices in the order of the
registry, each one checked before it was written, then the other members. Two
tarballs with one manifest agree on the slices. On the other members they agree
only if their contents do, for the manifest's list of them is never consulted.
-/

namespace SpineFormal.Migration

open Json
set_option autoImplicit false

variable {σ τ : Type}

/-- The destination after some calls. -/
def Dest.after (w : DestWriter σ) (d : Dest σ) (cs : List WriterCall) : Dest σ :=
  ⟨cs.foldl (fun s c => (w.call s c).1) d.state, d.calls ++ cs⟩

@[simp] theorem Dest.after_nil (w : DestWriter σ) (d : Dest σ) : d.after w [] = d := by
  simp [after]

theorem Dest.after_append (w : DestWriter σ) (d : Dest σ) (cs ds : List WriterCall) :
    d.after w (cs ++ ds) = (d.after w cs).after w ds := by
  simp [after]

theorem Dest.send_eq_after {w : DestWriter σ} {d d' : Dest σ} {c : WriterCall} {r : WriterReply}
    (h : d.send w c = (d', r)) : d' = d.after w [c] := by
  obtain ⟨rfl, -⟩ := Prod.mk.inj h
  rfl

def sliceWrite (p : String × List Value) : WriterCall := .writeSchemaRows p.1 p.2

/-- Slices in the order of `schemas`, each of them checked against the manifest. -/
structure Checked (tar : Tarball) (slices : List (Value × Members)) (schemas : List String)
    (done : List (String × List Value)) : Prop where
  order : done.map Prod.fst <+: schemas
  checked : ∀ p ∈ done, checkSlice tar slices p.1 = .ok p.2

theorem Checked.nil (tar : Tarball) (slices : List (Value × Members)) (schemas : List String) :
    Checked tar slices schemas [] :=
  ⟨List.nil_prefix, by simp⟩

theorem Checked.cons {tar : Tarball} {slices : List (Value × Members)} {schema : String}
    {schemas : List String} {rows : List Value} {done : List (String × List Value)}
    (hrows : checkSlice tar slices schema = .ok rows) (h : Checked tar slices schemas done) :
    Checked tar slices (schema :: schemas) ((schema, rows) :: done) := by
  refine ⟨?_, ?_⟩
  · rw [List.map_cons, List.cons_prefix_cons]
    exact ⟨rfl, h.order⟩
  · intro p hp
    rcases List.mem_cons.mp hp with rfl | hp
    · exact hrows
    · exact h.checked p hp

theorem importSlices_dryRun (w : DestWriter σ) (tar : Tarball) (slices : List (Value × Members))
    (schemas : List String) (d : Dest σ) : (importSlices w true tar slices schemas d).1 = d := by
  induction schemas generalizing d with
  | nil => rfl
  | cons schema rest ih =>
    rw [importSlices]
    split
    · rfl
    · exact ih d

/-- The slices written are checked ones, in order, and all of them where the loop ends well. -/
theorem importSlices_writes (w : DestWriter σ) (tar : Tarball) (slices : List (Value × Members))
    (schemas : List String) (d : Dest σ) :
    ∃ done, Checked tar slices schemas done ∧
      (importSlices w false tar slices schemas d).1 = d.after w (done.map sliceWrite) ∧
      ∀ counts, (importSlices w false tar slices schemas d).2 = .ok counts →
        done.map Prod.fst = schemas := by
  induction schemas generalizing d with
  | nil => exact ⟨[], .nil .., by simp [importSlices], fun _ _ => rfl⟩
  | cons schema rest ih =>
    cases hrows : checkSlice tar slices schema with
    | error failure =>
      have hout : importSlices w false tar slices (schema :: rest) d = (d, .error failure) := by
        simp [importSlices, hrows]
      rw [hout]
      exact ⟨[], .nil .., by simp, fun _ h => nomatch h⟩
    | ok rows =>
      cases hsend : d.send w (.writeSchemaRows schema rows) with
      | mk d' reply =>
        cases reply with
        | raised =>
          have hout : importSlices w false tar slices (schema :: rest) d =
              (d', .error .destWriteFailed) := by
            simp [importSlices, hrows, hsend]
          rw [hout]
          refine ⟨[(schema, rows)], (Checked.nil ..).cons hrows, ?_, fun _ h => nomatch h⟩
          exact Dest.send_eq_after hsend
        | returned written =>
          have hout : importSlices w false tar slices (schema :: rest) d =
              ((importSlices w false tar slices rest d').1,
                (importSlices w false tar slices rest d').2.map ((schema, written) :: ·)) := by
            simp [importSlices, hrows, hsend]
          rw [hout]
          obtain ⟨done, hdone, hdest, hall⟩ := ih d'
          refine ⟨(schema, rows) :: done, hdone.cons hrows, ?_, ?_⟩
          · rw [hdest, Dest.send_eq_after hsend]
            exact (Dest.after_append w d [_] _).symm
          · intro counts hcounts
            cases hrest : (importSlices w false tar slices rest d').2 with
            | error failure =>
              rw [hrest] at hcounts
              cases hcounts
            | ok counts' => rw [List.map_cons, hall counts' hrest]

/-- The calls sent are the first ones, and all of them where none raises. -/
theorem sendAll_calls (w : DestWriter σ) (cs : List WriterCall) (d : Dest σ) :
    ∃ sent, sent <+: cs ∧ (sendAll w cs d).1 = d.after w sent ∧
      ((sendAll w cs d).2 = true → sent = cs) := by
  induction cs generalizing d with
  | nil => exact ⟨[], List.nil_prefix, by simp [sendAll], fun _ => rfl⟩
  | cons c rest ih =>
    cases hsend : d.send w c with
    | mk d' reply =>
      cases reply with
      | raised =>
        have hout : sendAll w (c :: rest) d = (d', false) := by simp [sendAll, hsend]
        rw [hout]
        exact ⟨[c], by simp, Dest.send_eq_after hsend, fun h => nomatch h⟩
      | returned v =>
        have hout : sendAll w (c :: rest) d = sendAll w rest d' := by simp [sendAll, hsend]
        rw [hout]
        obtain ⟨sent, hsent, hdest, hall⟩ := ih d'
        refine ⟨c :: sent, ?_, ?_, ?_⟩
        · rw [List.cons_prefix_cons]
          exact ⟨rfl, hsent⟩
        · rw [hdest, Dest.send_eq_after hsend]
          exact (Dest.after_append w d [c] sent).symm
        · intro h
          rw [hall h]

theorem replayAudit_dest (w : DestWriter σ) (d : Dest σ) :
    (replayAudit w d).1 = d.after w [.replayAuditChain] := by
  unfold replayAudit
  split
  · rename_i hsend
    exact Dest.send_eq_after hsend
  · rename_i hsend
    split <;> exact Dest.send_eq_after hsend
  · rename_i hsend
    exact Dest.send_eq_after hsend

theorem replayAudit_failure {w : DestWriter σ} {d : Dest σ} {failure : ImportFailure}
    (h : (replayAudit w d).2 = .error failure) : failure = .auditChainBreak := by
  unfold replayAudit at h
  split at h
  · exact (Except.error.inj h).symm
  · split_ifs at h
    exact (Except.error.inj h).symm
  · rename_i v hdict hsend
    obtain ⟨ms, rfl⟩ := w.replay_dict d.state v (congrArg Prod.snd hsend)
    exact (hdict ms rfl).elim

/-- The writes stop at one that raises, or all are made and then the replay decides. -/
theorem finishImport_cases (w : DestWriter σ) (aux : Auxiliary) (report : ImportReport)
    (d : Dest σ) :
    (∃ sent failure, sent <+: aux.calls ∧
      finishImport w aux report d = (d.after w sent, .error failure)) ∨
    ((finishImport w aux report d).1 = d.after w (aux.calls ++ [.replayAuditChain]) ∧
      ∀ failure, (finishImport w aux report d).2 = .error failure →
        failure = .auditChainBreak) := by
  obtain ⟨sent, hsent, hafter, hall⟩ := sendAll_calls w aux.calls d
  unfold finishImport
  split
  · rename_i hsend
    rw [hsend] at hafter
    exact .inl ⟨sent, .destWriteFailed, hsent, Prod.ext hafter rfl⟩
  · rename_i d' hsend
    rw [hsend] at hafter hall
    obtain rfl := hall rfl
    have hdest := replayAudit_dest w d'
    have hd' : d' = d.after w aux.calls := hafter
    nth_rewrite 2 [hd'] at hdest
    rw [← Dest.after_append] at hdest
    right
    split
    · rename_i failure hout
      rw [hout] at hdest
      refine ⟨hdest, fun failure' h => ?_⟩
      rw [← Except.error.inj h]
      exact replayAudit_failure (congrArg Prod.snd hout)
    · rename_i hout
      rw [hout] at hdest
      exact ⟨hdest, fun failure h => nomatch h⟩

/-- What an import has written when it stops early: nothing; some of the slices; or all of them and
some of the rest. -/
inductive Written (verify : Verifier) (tar : Tarball) : List WriterCall → Prop where
  | nothing : Written verify tar []
  | slices {slices : List (Value × Members)} {done : List (String × List Value)} :
      verifiedSlices verify tar = .ok slices → Checked tar slices schemaSlices done →
        Written verify tar (done.map sliceWrite)
  | auxiliary {slices : List (Value × Members)} {done : List (String × List Value)}
      {aux : Auxiliary} {sent : List WriterCall} :
      verifiedSlices verify tar = .ok slices → Checked tar slices schemaSlices done →
        done.map Prod.fst = schemaSlices → readAuxiliary tar = .ok aux → sent <+: aux.calls →
          Written verify tar (done.map sliceWrite ++ sent)

/-- What an import has sent when it comes to its end. -/
def Complete (verify : Verifier) (tar : Tarball) (calls : List WriterCall) : Prop :=
  ∃ slices done aux, verifiedSlices verify tar = .ok slices ∧
    Checked tar slices schemaSlices done ∧ done.map Prod.fst = schemaSlices ∧
      readAuxiliary tar = .ok aux ∧
        calls = done.map sliceWrite ++ (aux.calls ++ [.replayAuditChain])

theorem importState_dryRun (verify : Verifier) (w : DestWriter σ) (tar : Tarball) (d : Dest σ) :
    (importState verify w true tar d).1 = d := by
  unfold importState
  split
  · rfl
  · rename_i slices _
    have hdest := importSlices_dryRun w tar slices schemaSlices d
    split
    · rename_i hout
      rw [hout] at hdest
      exact hdest
    · rename_i hout
      rw [hout] at hdest
      split
      · exact hdest
      · exact hdest

/-- An import fails with part of its writes made, or comes to the replay with all of them made. -/
theorem importState_cases (verify : Verifier) (w : DestWriter σ) (tar : Tarball) (d : Dest σ) :
    (∃ calls failure, Written verify tar calls ∧
      importState verify w false tar d = (d.after w calls, .error failure)) ∨
    (∃ calls, Complete verify tar calls ∧ (importState verify w false tar d).1 = d.after w calls ∧
      ∀ failure, (importState verify w false tar d).2 = .error failure →
        failure = .auditChainBreak) := by
  unfold importState
  split
  · rename_i failure _
    exact .inl ⟨[], failure, .nothing, by simp⟩
  · rename_i slices hslices
    obtain ⟨done, hdone, hdest, hall⟩ := importSlices_writes w tar slices schemaSlices d
    split
    · rename_i failure hout
      rw [hout] at hdest
      exact .inl ⟨_, failure, .slices hslices hdone, Prod.ext hdest rfl⟩
    · rename_i d' counts hout
      rw [hout] at hdest hall
      have hfull := hall counts rfl
      split
      · rename_i failure _
        exact .inl ⟨_, failure, .slices hslices hdone, Prod.ext hdest rfl⟩
      · rename_i aux haux
        rcases finishImport_cases w aux
          ⟨counts, aux.charters.length, aux.vaultPaths.length, none, false⟩ d' with
          ⟨sent, failure, hsent, hfinish⟩ | ⟨hfinish, hbreak⟩
        · left
          refine ⟨done.map sliceWrite ++ sent, failure, .auxiliary hslices hdone hfull haux hsent, ?_⟩
          rw [Dest.after_append, ← hdest]
          exact hfinish
        · right
          refine ⟨_, ⟨slices, done, aux, hslices, hdone, hfull, haux, rfl⟩, ?_, hbreak⟩
          rw [Dest.after_append, ← hdest]
          exact hfinish

theorem importState_complete {verify : Verifier} {w : DestWriter σ} {tar : Tarball} {d : Dest σ}
    {report : ImportReport} (h : (importState verify w false tar d).2 = .ok report) :
    ∃ calls, Complete verify tar calls ∧ (importState verify w false tar d).1 = d.after w calls := by
  rcases importState_cases verify w tar d with ⟨calls, failure, -, hout⟩ | ⟨calls, hcomplete, hdest, -⟩
  · rw [hout] at h
    cases h
  · exact ⟨calls, hcomplete, hdest⟩

/-- The manifest is verified, and so is the first slice. -/
def FirstSliceVerified (verify : Verifier) (tar : Tarball) : Prop :=
  ∃ slices rows, verifiedSlices verify tar = .ok slices ∧
    checkSlice tar slices "spine_lifecycle" = .ok rows

theorem Checked.eq_nil_or_first {tar : Tarball} {slices : List (Value × Members)}
    {done : List (String × List Value)} (h : Checked tar slices schemaSlices done) :
    done = [] ∨ ∃ rows, checkSlice tar slices "spine_lifecycle" = .ok rows := by
  cases done with
  | nil => exact .inl rfl
  | cons p done =>
    right
    have hname : p.1 = "spine_lifecycle" := (List.cons_prefix_cons.mp h.order).1
    exact ⟨p.2, hname ▸ h.checked p List.mem_cons_self⟩

theorem Written.eq_nil {verify : Verifier} {tar : Tarball} {calls : List WriterCall}
    (h : Written verify tar calls) (hfirst : ¬ FirstSliceVerified verify tar) : calls = [] := by
  cases h with
  | nothing => rfl
  | slices hslices hdone =>
    rcases hdone.eq_nil_or_first with rfl | ⟨rows, hrows⟩
    · rfl
    · exact absurd ⟨_, rows, hslices, hrows⟩ hfirst
  | auxiliary hslices hdone hfull =>
    rcases hdone.eq_nil_or_first with rfl | ⟨rows, hrows⟩
    · cases hfull
    · exact absurd ⟨_, rows, hslices, hrows⟩ hfirst

/-- An import that fails before the replay's verdict leaves whole slices in the order of the
registry, each checked before it was written, and after all of them a first part of the other
writes; nothing at all in a dry run, or before the first slice is verified. -/
theorem failed_import_leaves_prefix (verify : Verifier) (w : DestWriter σ) (dryRun : Bool)
    (tar : Tarball) (d : Dest σ) {failure : ImportFailure}
    (h : (importState verify w dryRun tar d).2 = .error failure)
    (hbreak : failure ≠ .auditChainBreak) :
    ∃ calls, (importState verify w dryRun tar d).1 = d.after w calls ∧ Written verify tar calls ∧
      (dryRun = true ∨ ¬ FirstSliceVerified verify tar → calls = []) := by
  cases dryRun with
  | true => exact ⟨[], by simp [importState_dryRun], .nothing, fun _ => rfl⟩
  | false =>
    rcases importState_cases verify w tar d with ⟨calls, _, hwritten, hout⟩ | ⟨_, -, -, hreplay⟩
    · refine ⟨calls, by rw [hout], hwritten, ?_⟩
      rintro (hdry | hfirst)
      · cases hdry
      · exact hwritten.eq_nil hfirst
    · exact absurd (hreplay failure h) hbreak

/-! ## Two tarballs with one manifest -/

theorem checkSlice_eq_ok {tar : Tarball} {slices : List (Value × Members)} {schema : String}
    {rows : List Value} (h : checkSlice tar slices schema = .ok rows) :
    ∃ info payload, sliceInfo slices schema = some info ∧
      readTarMember tar (slicePath schema) = .ok payload ∧
        dictGet info "content_sha256" = some (.str (hexdigestBytes payload)) ∧
          parseJsonl payload = some rows := by
  unfold checkSlice at h
  split at h
  · cases h
  · rename_i info hinfo
    cases hpayload : readTarMember tar (slicePath schema) with
    | error failure =>
      rw [hpayload] at h
      cases h
    | ok payload =>
      rw [hpayload] at h
      simp only [bind, Except.bind] at h
      split at h
      · cases h
      · rename_i expected hexpected
        split_ifs at h with hhash
        cases hrows : parseJsonl payload with
        | none =>
          rw [hrows] at h
          cases h
        | some found =>
          rw [hrows] at h
          obtain rfl := Except.ok.inj h
          exact ⟨info, payload, hinfo, rfl, hhash ▸ hexpected, hrows⟩
      · cases h
      · cases h

/-- The payloads of the slices of a tarball. -/
def slicePayloads (tar : Tarball) : Set Bytes :=
  {payload | ∃ schema ∈ schemaSlices, readTarMember tar (slicePath schema) = .ok payload}

theorem hexdigestBytes_inj {messages : Set Bytes} (hcf : CollisionFreeOn messages) {bs cs : Bytes}
    (hbs : bs ∈ messages) (hcs : cs ∈ messages) (h : hexdigestBytes bs = hexdigestBytes cs) :
    bs = cs :=
  hcf hbs hcs (hex_injective (String.ofList_injective h))

/-- A slice that passes the check against one entry in two tarballs has the same rows in both. -/
theorem checkSlice_unique {t₁ t₂ : Tarball} {slices : List (Value × Members)} {schema : String}
    {rows₁ rows₂ : List Value} (hcf : CollisionFreeOn (slicePayloads t₁ ∪ slicePayloads t₂))
    (hschema : schema ∈ schemaSlices) (h₁ : checkSlice t₁ slices schema = .ok rows₁)
    (h₂ : checkSlice t₂ slices schema = .ok rows₂) : rows₁ = rows₂ := by
  obtain ⟨info, payload₁, hinfo₁, hread₁, hhash₁, hrows₁⟩ := checkSlice_eq_ok h₁
  obtain ⟨info₂, payload₂, hinfo₂, hread₂, hhash₂, hrows₂⟩ := checkSlice_eq_ok h₂
  obtain rfl : info = info₂ := Option.some.inj (hinfo₁.symm.trans hinfo₂)
  have hhash := Value.str.inj (Option.some.inj (hhash₁.symm.trans hhash₂))
  obtain rfl := hexdigestBytes_inj hcf (.inl ⟨schema, hschema, hread₁⟩)
    (.inr ⟨schema, hschema, hread₂⟩) hhash
  exact Option.some.inj (hrows₁.symm.trans hrows₂)

theorem Checked.unique {t₁ t₂ : Tarball} {slices : List (Value × Members)}
    {done₁ done₂ : List (String × List Value)}
    (hcf : CollisionFreeOn (slicePayloads t₁ ∪ slicePayloads t₂))
    (h₁ : Checked t₁ slices schemaSlices done₁) (h₂ : Checked t₂ slices schemaSlices done₂)
    (hnames : done₁.map Prod.fst = done₂.map Prod.fst) : done₁ = done₂ := by
  have hschemas : ∀ p ∈ done₁, p.1 ∈ schemaSlices := fun p hp =>
    h₁.order.subset (List.mem_map_of_mem hp)
  have hrows₁ := h₁.checked
  have hrows₂ := h₂.checked
  clear h₁ h₂
  induction done₁ generalizing done₂ with
  | nil => exact (List.map_eq_nil_iff.mp hnames.symm).symm
  | cons p done₁ ih =>
    cases done₂ with
    | nil => cases hnames
    | cons q done₂ =>
      obtain ⟨hname, hrest⟩ := List.cons.inj hnames
      have hp := hrows₁ p List.mem_cons_self
      have hq := hrows₂ q List.mem_cons_self
      rw [← hname] at hq
      have hrows := checkSlice_unique hcf (hschemas p List.mem_cons_self) hp hq
      rw [Prod.ext hname hrows, ih hrest
        (fun r hr => hschemas r (List.mem_cons_of_mem p hr))
        (fun r hr => hrows₁ r (List.mem_cons_of_mem p hr))
        (fun r hr => hrows₂ r (List.mem_cons_of_mem q hr))]

/-- The manifest and its signature decide what is verified. -/
theorem verifiedSlices_congr (verify : Verifier) {t₁ t₂ : Tarball}
    (hmanifest : getMember t₁ "MANIFEST.json" = getMember t₂ "MANIFEST.json")
    (hsig : getMember t₁ "MANIFEST.sig" = getMember t₂ "MANIFEST.sig") :
    verifiedSlices verify t₁ = verifiedSlices verify t₂ := by
  simp only [verifiedSlices, readManifest, readTarMember, hmanifest, hsig]

theorem Auxiliary.calls_injective : Function.Injective Auxiliary.calls := by
  rintro ⟨yaml, license, paths, charters⟩ ⟨yaml', license', paths', charters'⟩ h
  simpa [calls, and_comm, and_left_comm] using h

/-- Two imports that succeed under one signed manifest make the same calls exactly if they are dry
runs, or if the bundles, licenses, vault paths and charters read from the two tarballs agree. -/
theorem same_calls_iff (verify : Verifier) (w₁ : DestWriter σ) (w₂ : DestWriter τ) (dryRun : Bool)
    {t₁ t₂ : Tarball} (s₁ : σ) (s₂ : τ) {report₁ report₂ : ImportReport}
    (hmanifest : getMember t₁ "MANIFEST.json" = getMember t₂ "MANIFEST.json")
    (hsig : getMember t₁ "MANIFEST.sig" = getMember t₂ "MANIFEST.sig")
    (hcf : CollisionFreeOn (slicePayloads t₁ ∪ slicePayloads t₂))
    (h₁ : (importState verify w₁ dryRun t₁ ⟨s₁, []⟩).2 = .ok report₁)
    (h₂ : (importState verify w₂ dryRun t₂ ⟨s₂, []⟩).2 = .ok report₂) :
    (importState verify w₁ dryRun t₁ ⟨s₁, []⟩).1.calls =
        (importState verify w₂ dryRun t₂ ⟨s₂, []⟩).1.calls ↔
      dryRun = true ∨ readAuxiliary t₁ = readAuxiliary t₂ := by
  cases dryRun with
  | true => simp [importState_dryRun]
  | false =>
    obtain ⟨_, ⟨slices, done, aux₁, hslices₁, hdone₁, hnames₁, haux₁, rfl⟩, hdest₁⟩ :=
      importState_complete h₁
    obtain ⟨_, ⟨slices₂, done₂, aux₂, hslices₂, hdone₂, hnames₂, haux₂, rfl⟩, hdest₂⟩ :=
      importState_complete h₂
    obtain rfl : slices = slices₂ := by
      rw [verifiedSlices_congr verify hmanifest hsig, hslices₂] at hslices₁
      exact (Except.ok.inj hslices₁).symm
    obtain rfl := hdone₁.unique hcf hdone₂ (hnames₁.trans hnames₂.symm)
    rw [hdest₁, hdest₂, haux₁, haux₂]
    simp [Dest.after, Auxiliary.calls_injective.eq_iff]

/-! ## A small bundle -/

def entryOf (digest : String → String) (schema : String) : Members :=
  [("schema", .str schema), ("content_sha256", .str (digest schema))]

def manifestOf (digest : String → String) : Members :=
  [("manifest_version", .int 1), ("signing_key_fingerprint", .str "ab"),
   ("spine_version", .str "1.0"),
   ("schemas", .arr (schemaSlices.map fun s => .obj (entryOf digest s)))]

def signedManifest (digest : String → String) : Bytes :=
  encodeUtf8 (encode (.obj (manifestOf digest)))

/-- A tarball whose slices are all empty. -/
def tarOf (manifest yaml : Bytes) : Tarball :=
  ⟨"MANIFEST.json", .file manifest⟩ :: ⟨"MANIFEST.sig", .file (encodeUtf8 "c2ln".toList)⟩ ::
    (schemaSlices.map fun s => ⟨slicePath s, .file []⟩) ++
    [⟨"bundle/org.yaml", .file yaml⟩, ⟨"bundle/license.json", .file (encodeUtf8 "{}".toList)⟩,
     ⟨"vault_refs.json", .file (encodeUtf8 "{}".toList)⟩]

/-- Knows one signature. -/
def sigVerifier : Verifier := fun _ signature _ =>
  if signature = [115, 105, 103] then none else some .signatureInvalid

def allOk : Value := .obj [("ok", .bool true)]

/-- A destination that remembers what it was sent. -/
def recorder : DestWriter (List WriterCall) where
  call calls c := (calls ++ [c], .returned allOk)
  replay_dict _ _ h := ⟨_, (WriterReply.returned.inj h).symm⟩

theorem loadsText_signedManifest (digest : String → String) :
    (decodeUtf8 (signedManifest digest)).bind loadsText = some (.obj (manifestOf digest)) := by
  have hdicts : (Value.obj (manifestOf digest)).dicts = .obj (manifestOf digest) := by
    simp [manifestOf, entryOf, schemaSlices, Value.dicts, dictsElems, dictsMembers, dictOf, dictSet]
  rw [signedManifest, decodeUtf8_encodeUtf8, Option.bind_some, loadsText_encode, hdicts]

theorem verifiedSlices_tarOf {m : Bytes} {digest : String → String}
    (hload : (decodeUtf8 m).bind loadsText = some (.obj (manifestOf digest))) (y : Bytes) :
    verifiedSlices sigVerifier (tarOf m y) =
      .ok (schemaSlices.map fun s => (.str s, entryOf digest s)) := by
  have hjson : readTarMember (tarOf m y) "MANIFEST.json" = .ok m := rfl
  have hsig : readTarMember (tarOf m y) "MANIFEST.sig" = .ok (encodeUtf8 "c2ln".toList) := rfl
  have hdecode : b64decode (stripBytes (encodeUtf8 "c2ln".toList)) = some [115, 105, 103] := by
    decide
  have hmanifest : readManifest sigVerifier (tarOf m y) = .ok (manifestOf digest) := by
    simp only [readManifest, hjson, hsig, hload, hdecode, bind, Except.bind]
    rfl
  rw [verifiedSlices, hmanifest]
  rfl

theorem getMember_manifest (m y y' : Bytes) :
    getMember (tarOf m y) "MANIFEST.json" = getMember (tarOf m y') "MANIFEST.json" := rfl

theorem getMember_sig (m y y' : Bytes) :
    getMember (tarOf m y) "MANIFEST.sig" = getMember (tarOf m y') "MANIFEST.sig" := rfl

theorem readTarMember_slice (m y : Bytes) {schema : String} (h : schema ∈ schemaSlices) :
    readTarMember (tarOf m y) (slicePath schema) = .ok [] := by
  simp only [schemaSlices, List.mem_cons, List.not_mem_nil, or_false] at h
  rcases h with rfl | rfl | rfl | rfl | rfl | rfl | rfl | rfl | rfl | rfl | rfl | rfl <;> rfl

theorem checkSlice_tarOf (m y : Bytes) (digest : String → String) {schema : String}
    (h : schema ∈ schemaSlices) :
    checkSlice (tarOf m y) (schemaSlices.map fun s => (.str s, entryOf digest s)) schema =
      if hexdigestBytes [] = digest schema then .ok [] else .error .sliceHashMismatch := by
  have hinfo : sliceInfo (schemaSlices.map fun s => (.str s, entryOf digest s)) schema =
      some (entryOf digest schema) := by
    simp only [schemaSlices, List.mem_cons, List.not_mem_nil, or_false] at h
    rcases h with rfl | rfl | rfl | rfl | rfl | rfl | rfl | rfl | rfl | rfl | rfl | rfl <;> rfl
  have hread := readTarMember_slice m y h
  have hdigest : dictGet (entryOf digest schema) "content_sha256" = some (.str (digest schema)) :=
    rfl
  have hrows : parseJsonl [] = some [] := rfl
  simp only [checkSlice, hinfo, hread, hdigest, hrows, bind, Except.bind]
  rfl

theorem readCharters_of_none {tar : Tarball} (h : ∀ m ∈ tar, charterRole m.name = none)
    (charters : Members) : readCharters tar charters = .ok charters := by
  induction tar with
  | nil => rfl
  | cons m tar ih =>
    rw [readCharters, h m List.mem_cons_self]
    exact ih fun m' hm' => h m' (List.mem_cons_of_mem m hm')

theorem readAuxiliary_tarOf (m : Bytes) (text : List Char) :
    readAuxiliary (tarOf m (encodeUtf8 text)) = .ok ⟨text, .obj [], [], []⟩ := by
  have hloads : loadsBytes (encodeUtf8 "{}".toList) = some (.obj []) := by
    have hpass : detectEncoding (encodeUtf8 "{}".toList) = (.utf8, encodeUtf8 "{}".toList) := rfl
    have hpass' : passSurrogates (encodeUtf8 "{}".toList) = encodeUtf8 "{}".toList := by decide
    rw [loadsBytes, hpass]
    simp only [decodeAs, hpass', decodeUtf8_encodeUtf8, Option.bind_some]
    simp [loadsText, loads, parseValue, skipWs, Value.dicts, dictOf, dictsMembers, isWs]
  have hyaml : readTarMember (tarOf m (encodeUtf8 text)) "bundle/org.yaml" =
      .ok (encodeUtf8 text) := rfl
  have hlicense : readTarMember (tarOf m (encodeUtf8 text)) "bundle/license.json" =
      .ok (encodeUtf8 "{}".toList) := rfl
  have hrefs : readTarMember (tarOf m (encodeUtf8 text)) "vault_refs.json" =
      .ok (encodeUtf8 "{}".toList) := rfl
  have hcharters : readCharters (tarOf m (encodeUtf8 text)) [] = .ok [] := by
    apply readCharters_of_none
    have hnames : ∀ name ∈ (tarOf m (encodeUtf8 text)).map Member.name, charterRole name = none := by
      have hlist : (tarOf m (encodeUtf8 text)).map Member.name = (tarOf [] []).map Member.name := rfl
      rw [hlist]
      decide
    intro x hx
    exact hnames x.name (List.mem_map_of_mem hx)
  simp only [readAuxiliary, hyaml, hlicense, hrefs, hcharters, decodeUtf8_encodeUtf8, hloads,
    orUncaught, bind, Except.bind]
  rfl

theorem importSlices_recorder {tar : Tarball} {slices : List (Value × Members)}
    {schemas : List String} (h : ∀ s ∈ schemas, checkSlice tar slices s = .ok [])
    (d : Dest (List WriterCall)) :
    importSlices recorder false tar slices schemas d =
      (d.after recorder (schemas.map fun s => sliceWrite (s, [])), .ok (schemas.map (·, allOk))) := by
  induction schemas generalizing d with
  | nil => simp [importSlices]
  | cons schema rest ih =>
    have hrest := ih (fun s hs => h s (List.mem_cons_of_mem schema hs))
      (d.after recorder [sliceWrite (schema, [])])
    have hsend : d.send recorder (.writeSchemaRows schema []) =
      (d.after recorder [sliceWrite (schema, [])], .returned allOk) := rfl
    simp only [importSlices, h schema List.mem_cons_self, hsend, hrest]
    rw [← Dest.after_append]
    rfl

theorem finishImport_recorder (aux : Auxiliary) (report : ImportReport)
    (d : Dest (List WriterCall)) :
    finishImport recorder aux report d =
      (d.after recorder (aux.calls ++ [.replayAuditChain]),
        .ok { report with auditChainOk := some true }) := by
  simp [finishImport, sendAll, Auxiliary.calls, Dest.send, replayAudit, recorder, allOk, dictGet,
    lookup, truthy, Dest.after]

theorem importState_eq_finishImport {verify : Verifier} {w : DestWriter σ} {tar : Tarball}
    {d d' : Dest σ} {slices : List (Value × Members)} {counts : List (String × Value)}
    {aux : Auxiliary} (hslices : verifiedSlices verify tar = .ok slices)
    (hwritten : importSlices w false tar slices schemaSlices d = (d', .ok counts))
    (haux : readAuxiliary tar = .ok aux) :
    importState verify w false tar d =
      finishImport w aux ⟨counts, aux.charters.length, aux.vaultPaths.length, none, false⟩ d' := by
  simp [importState, hslices, hwritten, haux]

theorem importState_eq_error {verify : Verifier} {w : DestWriter σ} {tar : Tarball} {d d' : Dest σ}
    {slices : List (Value × Members)} {failure : ImportFailure}
    (hslices : verifiedSlices verify tar = .ok slices)
    (hstopped : importSlices w false tar slices schemaSlices d = (d', .error failure)) :
    importState verify w false tar d = (d', .error failure) := by
  simp [importState, hslices, hstopped]

def wholeImport (text : List Char) : List WriterCall :=
  (schemaSlices.map fun s => sliceWrite (s, [])) ++
    ((⟨text, .obj [], [], []⟩ : Auxiliary).calls ++ [.replayAuditChain])

def wholeReport : ImportReport := ⟨schemaSlices.map (·, allOk), 0, 0, some true, false⟩

theorem importState_tarOf (text : List Char) :
    importState sigVerifier recorder false
        (tarOf (signedManifest fun _ => hexdigestBytes []) (encodeUtf8 text)) ⟨[], []⟩ =
      (Dest.after recorder ⟨[], []⟩ (wholeImport text), .ok wholeReport) := by
  have hslices := verifiedSlices_tarOf (loadsText_signedManifest fun _ => hexdigestBytes [])
    (encodeUtf8 text)
  have hchecked := importSlices_recorder (fun s hs =>
    (checkSlice_tarOf (signedManifest fun _ => hexdigestBytes []) (encodeUtf8 text)
      (fun _ => hexdigestBytes []) hs).trans (if_pos rfl)) ⟨[], []⟩
  generalize hexdigestBytes [] = digest at hslices hchecked ⊢
  generalize signedManifest (fun _ => digest) = m at hslices hchecked ⊢
  have haux := readAuxiliary_tarOf m text
  rw [importState_eq_finishImport hslices hchecked haux, finishImport_recorder, ← Dest.after_append]
  rfl

/-- The slices of the small bundle are all empty, so none of them collide. -/
theorem collisionFreeOn_tarOf (m y y' : Bytes) :
    CollisionFreeOn (slicePayloads (tarOf m y) ∪ slicePayloads (tarOf m y')) := by
  have hempty : ∀ y, ∀ payload ∈ slicePayloads (tarOf m y), payload = [] := by
    rintro y payload ⟨schema, hschema, hread⟩
    rw [readTarMember_slice m y hschema] at hread
    exact (Except.ok.inj hread).symm
  rintro p (hp | hp) q (hq | hq) -
  all_goals rw [hempty _ p hp, hempty _ q hq]

/-- With the same signed manifest two organisations' policies are imported. -/
theorem unsigned_policy_imported :
    CollisionFreeOn (slicePayloads (tarOf (signedManifest fun _ => hexdigestBytes [])
        (encodeUtf8 ['a'])) ∪
      slicePayloads (tarOf (signedManifest fun _ => hexdigestBytes []) (encodeUtf8 ['b']))) ∧
    ∃ d d' : Dest (List WriterCall),
      importState sigVerifier recorder false
        (tarOf (signedManifest fun _ => hexdigestBytes []) (encodeUtf8 ['a'])) ⟨[], []⟩ =
          (d, .ok wholeReport) ∧
      importState sigVerifier recorder false
        (tarOf (signedManifest fun _ => hexdigestBytes []) (encodeUtf8 ['b'])) ⟨[], []⟩ =
          (d', .ok wholeReport) ∧
      d.calls ≠ d'.calls := by
  refine ⟨collisionFreeOn_tarOf .., _, _, importState_tarOf ['a'], importState_tarOf ['b'], ?_⟩
  simp [Dest.after, wholeImport, Auxiliary.calls]

theorem same_calls_iff_two_policies :
    (importState sigVerifier recorder false
        (tarOf (signedManifest fun _ => hexdigestBytes []) (encodeUtf8 ['a'])) ⟨[], []⟩).1.calls =
      (importState sigVerifier recorder false
        (tarOf (signedManifest fun _ => hexdigestBytes []) (encodeUtf8 ['b'])) ⟨[], []⟩).1.calls ↔
      false = true ∨
        readAuxiliary (tarOf (signedManifest fun _ => hexdigestBytes []) (encodeUtf8 ['a'])) =
          readAuxiliary (tarOf (signedManifest fun _ => hexdigestBytes []) (encodeUtf8 ['b'])) :=
  same_calls_iff sigVerifier recorder recorder false [] [] (getMember_manifest ..)
    (getMember_sig ..) (collisionFreeOn_tarOf ..)
    (congrArg Prod.snd (importState_tarOf ['a'])) (congrArg Prod.snd (importState_tarOf ['b']))

/-- Only the first slice is in the manifest as it is in the tarball. -/
def firstOnly (schema : String) : String :=
  if schema = "spine_lifecycle" then hexdigestBytes [] else ""

theorem importSlices_stops {tar : Tarball} {slices : List (Value × Members)} {first second : String}
    {rest : List String} {failure : ImportFailure} (hfirst : checkSlice tar slices first = .ok [])
    (hsecond : checkSlice tar slices second = .error failure) (d : Dest (List WriterCall)) :
    importSlices recorder false tar slices (first :: second :: rest) d =
      (d.after recorder [.writeSchemaRows first []], .error failure) := by
  have hsend : d.send recorder (.writeSchemaRows first []) =
      (d.after recorder [.writeSchemaRows first []], .returned allOk) := rfl
  simp [importSlices, hfirst, hsecond, hsend, Except.map]

theorem hexdigestBytes_ne_empty (bs : Bytes) : hexdigestBytes bs ≠ "" := by
  intro h
  have hlength := congrArg (fun s => s.toList.length) h
  simp [hexdigestBytes] at hlength

theorem importState_firstOnly (y : Bytes) :
    importState sigVerifier recorder false (tarOf (signedManifest firstOnly) y) ⟨[], []⟩ =
      (Dest.after recorder ⟨[], []⟩ [.writeSchemaRows "spine_lifecycle" []],
        .error .sliceHashMismatch) := by
  have hslices := verifiedSlices_tarOf (loadsText_signedManifest firstOnly) y
  generalize signedManifest firstOnly = m at hslices ⊢
  have hfirst : hexdigestBytes [] = firstOnly "spine_lifecycle" := (if_pos rfl).symm
  have hsecond : hexdigestBytes [] ≠ firstOnly "spine_audit" := hexdigestBytes_ne_empty []
  apply importState_eq_error hslices
  apply importSlices_stops
  · exact (checkSlice_tarOf m y firstOnly (by decide)).trans (if_pos hfirst)
  · exact (checkSlice_tarOf m y firstOnly (by decide)).trans (if_neg hsecond)

/-- The second slice is not the one of the manifest, but the first has been written by then. -/
theorem failed_import_keeps_first_slice :
    (importState sigVerifier recorder false (tarOf (signedManifest firstOnly) []) ⟨[], []⟩).2 =
        .error .sliceHashMismatch ∧
      (importState sigVerifier recorder false (tarOf (signedManifest firstOnly) [])
        ⟨[], []⟩).1.state ≠ [] := by
  rw [importState_firstOnly []]
  exact ⟨rfl, by simp [Dest.after, recorder]⟩

theorem failed_import_leaves_prefix_one_slice :
    ∃ calls, (importState sigVerifier recorder false (tarOf (signedManifest firstOnly) [])
        ⟨[], []⟩).1 = Dest.after recorder ⟨[], []⟩ calls ∧
      Written sigVerifier (tarOf (signedManifest firstOnly) []) calls ∧
        (false = true ∨ ¬ FirstSliceVerified sigVerifier (tarOf (signedManifest firstOnly) []) →
          calls = []) :=
  failed_import_leaves_prefix sigVerifier recorder false _ ⟨[], []⟩
    (congrArg Prod.snd (importState_firstOnly [])) (by decide)

end SpineFormal.Migration
