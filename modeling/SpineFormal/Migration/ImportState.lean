import SpineFormal.Json.Loads

/-!
# Importing an exported state

`import_state` reads the members of a tarball, checks the manifest and its
signature, and then goes through the schemas in the order of the registry: each
slice is compared with the manifest and written before the next one is looked
at. The bundle, the license, the charters and the vault paths follow, and last
the replay of the audit chain.
-/

namespace SpineFormal.Migration

open Json
set_option autoImplicit false

/-! ## Tarballs -/

inductive MemberBody where
  | file (payload : Bytes)
  /-- A directory or a device: `extractfile` gives `None`. -/
  | notFile
  /-- A link whose target is not in the archive: `extractfile` raises. -/
  | broken

structure Member where
  name : String
  body : MemberBody

abbrev Tarball := List Member

/-- The code of an `ImportError`; `uncaught` is any other exception. -/
inductive ImportFailure where
  | manifestMalformed
  | manifestVersionMismatch
  | signatureMissing
  | signatureInvalid
  | fingerprintMismatch
  | sliceMissing
  | sliceHashMismatch
  | auditChainBreak
  | unsupportedSourceVersion
  | newerSourceVersion
  | destWriteFailed
  | uncaught
  deriving DecidableEq

/-- `getmember`: of members with one name the last counts. -/
def getMember (tar : Tarball) (name : String) : Option MemberBody :=
  (tar.reverse.find? fun m => decide (m.name = name)).map Member.body

def readTarMember (tar : Tarball) (name : String) : Except ImportFailure Bytes :=
  match getMember tar name with
  | some (.file payload) => .ok payload
  | some .broken => .error .uncaught
  | _ => .error .sliceMissing

/-- An expression that raises something else than `ImportError` where it has no value. -/
def orUncaught {α : Type} : Option α → Except ImportFailure α
  | some a => .ok a
  | none => .error .uncaught

/-! ## The manifest -/

def manifestVersion : Int := 1

def schemaSlices : List String :=
  ["spine_lifecycle", "spine_audit", "spine_kg", "spine_memory", "spine_federation",
   "spine_evidence", "spine_learning", "spine_devops", "spine_license", "spine_workitem",
   "spine_hub", "spine_identity"]

def supportedSpineVersions : List String := ["1.0", "1.1", "1.2", "1.3"]

def currentSpineVersion : String := "1.0"

def directUpgradeDistance : Int := 2

/-- Decimal digits, with single underscores between them. -/
def digitsValue : Nat → Bool → List Char → Option Nat
  | acc, afterDigit, [] => if afterDigit then some acc else none
  | acc, afterDigit, c :: s =>
    if c.isDigit then digitsValue (acc * 10 + (c.toNat - 48)) true s
    else if c = '_' ∧ afterDigit then digitsValue acc false s
    else none

/-- `int(text)`. -/
def intOfText (s : List Char) : Option Int :=
  match trimBy pySpace s with
  | '-' :: ds => (digitsValue 0 false ds).map fun n => -(n : Int)
  | '+' :: ds => (digitsValue 0 false ds).map Int.ofNat
  | ds => (digitsValue 0 false ds).map Int.ofNat

/-- `int(x)` of a float: its integral part. -/
def intOfFloat : PyFloat → Option Int
  | .nan => none
  | .inf _ => none
  | .zero _ => some 0
  | .finite neg c e _ =>
    let n : Int := if 0 ≤ e then c * 10 ^ e.natAbs else c / 10 ^ e.natAbs
    some (if neg then -n else n)

/-- `int(v)`; `none` is an exception. -/
def pyInt : Value → Option Int
  | .int n => some n
  | .bool b => some (if b then 1 else 0)
  | .float x => intOfFloat x
  | .str s => intOfText s.toList
  | _ => none

/-- `str(v)` where it could be a release; nothing else is written with digits alone. -/
def versionText : Value → Option String
  | .str s => some s
  | .int n => some (String.ofList (Numerals.decimal n))
  | .float x => some (String.ofList x.floatstr)
  | _ => none

/-- `_version_gap(src, CURRENT_SPINE_VERSION)`. -/
def versionGap (src : Option String) : Option Int := do
  let src ← src
  let i ← supportedSpineVersions.idxOf? src
  let j ← supportedSpineVersions.idxOf? currentSpineVersion
  return (j : Int) - i

def checkVersion (manifest : Members) : Except ImportFailure Unit :=
  match versionGap (versionText ((dictGet manifest "spine_version").getD (.str ""))) with
  | none => .error .unsupportedSourceVersion
  | some gap =>
    if gap < 0 then .error .newerSourceVersion
    else if directUpgradeDistance < gap then .error .unsupportedSourceVersion
    else .ok ()

/-- `verifier.verify`: what it raises for a message, a signature and a fingerprint. -/
abbrev Verifier := Bytes → Bytes → Value → Option ImportFailure

/-- Everything before the slices: manifest, signature, versions. -/
def readManifest (verify : Verifier) (tar : Tarball) : Except ImportFailure Members := do
  let manifestBytes ← readTarMember tar "MANIFEST.json"
  match (decodeUtf8 manifestBytes).bind loadsText with
  | none => .error .manifestMalformed
  | some document =>
    let sigBlob ← readTarMember tar "MANIFEST.sig"
    match b64decode (stripBytes sigBlob), document with
    | none, _ => .error .signatureMissing
    | some signature, .obj manifest =>
      let mv ← orUncaught (pyInt ((dictGet manifest "manifest_version").getD (.int (-1))))
      if mv ≠ manifestVersion then .error .manifestVersionMismatch
      else
        let fingerprint := (dictGet manifest "signing_key_fingerprint").getD (.str "")
        match verify manifestBytes signature fingerprint with
        | some failure => .error failure
        | none =>
          checkVersion manifest
          return manifest
    | some _, _ => .error .uncaught

/-! ## The slices -/

def hashable : Value → Bool
  | .arr _ => false
  | .obj _ => false
  | _ => true

/-- An entry of `schemas` with the key it is filed under. -/
def sliceEntry : Value → Option (Value × Members)
  | .obj info =>
    match dictGet info "schema" with
    | some key => if hashable key then some (key, info) else none
    | none => none
  | _ => none

/-- `{s["schema"]: s for s in manifest.get("schemas", [])}`; `none` is an exception. -/
def slicesByName (manifest : Members) : Option (List (Value × Members)) :=
  match (dictGet manifest "schemas").getD (.arr []) with
  | .arr entries => entries.mapM sliceEntry
  | .obj [] => some []
  | .str s => if s = "" then some [] else none
  | _ => none

def isKey (schema : String) : Value → Bool
  | .str s => decide (s = schema)
  | _ => false

/-- `slices_by_name.get(schema)`. -/
def sliceInfo (slices : List (Value × Members)) (schema : String) : Option Members :=
  (slices.reverse.find? fun s => isKey schema s.1).map Prod.snd

def hexdigestBytes (bs : Bytes) : String := String.ofList (hex (sha256 bs))

/-- `_parse_jsonl`; `none` is an exception. -/
def parseJsonl (blob : Bytes) : Option (List Value) :=
  ((splitlinesBytes blob).filter fun line => !(stripBytes line).isEmpty).mapM fun line =>
    (decodeUtf8 line).bind loadsText

def slicePath (schema : String) : String := "schemas/" ++ schema ++ ".jsonl"

/-- The rows of one slice, after its hash has been compared with the manifest. -/
def checkSlice (tar : Tarball) (slices : List (Value × Members)) (schema : String) :
    Except ImportFailure (List Value) :=
  match sliceInfo slices schema with
  | none => .error .sliceMissing
  | some info => do
    let payload ← readTarMember tar (slicePath schema)
    match dictGet info "content_sha256" with
    | none => .error .uncaught
    | some (.str expected) =>
      if hexdigestBytes payload = expected then orUncaught (parseJsonl payload)
      else .error .sliceHashMismatch
    | some (.arr _) => .error .sliceHashMismatch
    -- The text of the error takes a slice of the expected hash, which these do not have.
    | some _ => .error .uncaught

/-! ## The other members -/

structure Auxiliary where
  bundleYaml : List Char
  licenseEnvelope : Value
  vaultPaths : List Value
  charters : Members

/-- `list(v)`; `none` is an exception. -/
def pyList : Value → Option (List Value)
  | .arr xs => some xs
  | .obj ms => some (ms.map fun m => .str m.1)
  | .str s => some (s.toList.map fun c => .str (String.ofList [c]))
  | _ => none

def charterRole (name : String) : Option String :=
  let cs := name.toList
  if "charters/".toList <+: cs ∧ ".md".toList <:+ cs then
    some (String.ofList ((cs.drop 9).take (cs.length - 12)))
  else none

def readCharters : Tarball → Members → Except ImportFailure Members
  | [], charters => .ok charters
  | m :: rest, charters =>
    match charterRole m.name, m.body with
    | none, _ => readCharters rest charters
    | some _, .notFile => readCharters rest charters
    | some _, .broken => .error .uncaught
    | some role, .file payload => do
      let text ← orUncaught (decodeUtf8 payload)
      readCharters rest (dictSet charters role (.str (String.ofList text)))

def readVaultPaths : Value → Option (List Value)
  | .obj refs => pyList ((dictGet refs "paths").getD (.arr []))
  | _ => none

/-- Bundle, license, vault paths and charters. Nothing here looks at the manifest. -/
def readAuxiliary (tar : Tarball) : Except ImportFailure Auxiliary := do
  let yaml ← readTarMember tar "bundle/org.yaml"
  let bundleYaml ← orUncaught (decodeUtf8 yaml)
  let license ← readTarMember tar "bundle/license.json"
  let licenseEnvelope ← orUncaught (loadsBytes license)
  let refs ← readTarMember tar "vault_refs.json"
  let vaultPaths ← orUncaught ((loadsBytes refs).bind readVaultPaths)
  let charters ← readCharters tar []
  return { bundleYaml, licenseEnvelope, vaultPaths, charters }

/-! ## The destination -/

inductive WriterCall where
  | writeSchemaRows (schema : String) (rows : List Value)
  | writeBundleYaml (text : List Char)
  | writeLicenseEnvelope (envelope : Value)
  | writeRoleCharters (charters : Members)
  | writeVaultRefs (paths : List Value)
  | replayAuditChain

inductive WriterReply where
  | raised
  | returned (v : Value)

/-- Any destination: what a call does to its state, and what the caller gets. The verdict of a
replay is a dictionary. -/
structure DestWriter (σ : Type) where
  call : σ → WriterCall → σ × WriterReply
  replay_dict : ∀ s v, (call s .replayAuditChain).2 = .returned v → ∃ ms, v = .obj ms

/-- The destination during an import, with the calls it has received. -/
structure Dest (σ : Type) where
  state : σ
  calls : List WriterCall

variable {σ : Type}

def Dest.send (w : DestWriter σ) (d : Dest σ) (c : WriterCall) : Dest σ × WriterReply :=
  (⟨(w.call d.state c).1, d.calls ++ [c]⟩, (w.call d.state c).2)

def importSlices (w : DestWriter σ) (dryRun : Bool) (tar : Tarball)
    (slices : List (Value × Members)) :
    List String → Dest σ → Dest σ × Except ImportFailure (List (String × Value))
  | [], d => (d, .ok [])
  | schema :: rest, d =>
    match checkSlice tar slices schema with
    | .error failure => (d, .error failure)
    | .ok rows =>
      if dryRun then
        let out := importSlices w dryRun tar slices rest d
        (out.1, out.2.map ((schema, .int rows.length) :: ·))
      else
        match d.send w (.writeSchemaRows schema rows) with
        | (d', .raised) => (d', .error .destWriteFailed)
        | (d', .returned written) =>
          let out := importSlices w dryRun tar slices rest d'
          (out.1, out.2.map ((schema, written) :: ·))

def Auxiliary.calls (a : Auxiliary) : List WriterCall :=
  [.writeBundleYaml a.bundleYaml, .writeLicenseEnvelope a.licenseEnvelope,
   .writeRoleCharters a.charters, .writeVaultRefs a.vaultPaths]

/-- The calls one after the other, up to the first that raises. -/
def sendAll (w : DestWriter σ) : List WriterCall → Dest σ → Dest σ × Bool
  | [], d => (d, true)
  | c :: rest, d =>
    match d.send w c with
    | (d', .raised) => (d', false)
    | (d', .returned _) => sendAll w rest d'

/-- `bool(v)`. -/
def truthy : Value → Bool
  | .null => false
  | .bool b => b
  | .int n => n ≠ 0
  | .float (.zero _) => false
  | .float _ => true
  | .str s => s ≠ ""
  | .arr xs => !xs.isEmpty
  | .obj ms => !ms.isEmpty

def replayAudit (w : DestWriter σ) (d : Dest σ) : Dest σ × Except ImportFailure Unit :=
  match d.send w .replayAuditChain with
  | (d', .raised) => (d', .error .auditChainBreak)
  | (d', .returned (.obj replay)) =>
    if truthy ((dictGet replay "ok").getD (.bool false)) then (d', .ok ())
    else (d', .error .auditChainBreak)
  | (d', .returned _) => (d', .error .uncaught)

structure ImportReport where
  schemaRowCounts : List (String × Value)
  roleChartersWritten : Nat
  vaultPathsRegistered : Nat
  auditChainOk : Option Bool
  dryRun : Bool

/-- The writes after the slices, and the replay. -/
def finishImport (w : DestWriter σ) (aux : Auxiliary) (report : ImportReport) (d : Dest σ) :
    Dest σ × Except ImportFailure ImportReport :=
  match sendAll w aux.calls d with
  | (d, false) => (d, .error .destWriteFailed)
  | (d, true) =>
    match replayAudit w d with
    | (d, .error failure) => (d, .error failure)
    | (d, .ok _) => (d, .ok { report with auditChainOk := some true })

/-- What the manifest says about the slices, once it has been verified. -/
def verifiedSlices (verify : Verifier) (tar : Tarball) :
    Except ImportFailure (List (Value × Members)) :=
  (readManifest verify tar).bind fun manifest => orUncaught (slicesByName manifest)

def importState (verify : Verifier) (w : DestWriter σ) (dryRun : Bool) (tar : Tarball)
    (d : Dest σ) : Dest σ × Except ImportFailure ImportReport :=
  match verifiedSlices verify tar with
  | .error failure => (d, .error failure)
  | .ok slices =>
    match importSlices w dryRun tar slices schemaSlices d with
    | (d, .error failure) => (d, .error failure)
    | (d, .ok counts) =>
      match readAuxiliary tar with
      | .error failure => (d, .error failure)
      | .ok aux =>
        let report : ImportReport :=
          ⟨counts, aux.charters.length, aux.vaultPaths.length, none, dryRun⟩
        if dryRun then (d, .ok report) else finishImport w aux report d

end SpineFormal.Migration
