import Mathlib.Data.List.Basic

/-!
# The messages of the wire protocol

Parsed JSON as Python sees it, the typed client messages of `wire.py`, and the frames the
server sends. A JSON object is a Python `dict`, kept as its members in order; a missing key
and a `null` both read as `None` through `dict.get` (`Members.get`). Floats are kept as their
literal, which the decoder never looks into.

A frame is modelled before `json.dumps`: `ServerFrame.payload` is the dictionary the encoder
builds, with the PCM bytes in base64.
-/

namespace SupertonicServer.Wire

/-- A value returned by `json.loads`. -/
inductive Json where
  | null
  | bool (b : Bool)
  | int (n : Int)
  | float (literal : String)
  | str (s : String)
  | arr (items : List Json)
  | obj (members : List (String × Json))

mutual

/-- Whether two values are the same. -/
def Json.same : Json → Json → Bool
  | .null, .null => true
  | .bool a, .bool b => a == b
  | .int a, .int b => a == b
  | .float a, .float b => a == b
  | .str a, .str b => a == b
  | .arr a, .arr b => Json.sameItems a b
  | .obj a, .obj b => Json.sameMembers a b
  | _, _ => false

def Json.sameItems : List Json → List Json → Bool
  | [], [] => true
  | a :: as, b :: bs => a.same b && Json.sameItems as bs
  | _, _ => false

def Json.sameMembers : List (String × Json) → List (String × Json) → Bool
  | [], [] => true
  | (k, a) :: as, (l, b) :: bs => k == l && a.same b && Json.sameMembers as bs
  | _, _ => false

end

mutual

theorem Json.same_iff : ∀ a b : Json, a.same b = true ↔ a = b
  | .null, b => by cases b <;> simp [Json.same]
  | .bool _, b => by cases b <;> simp [Json.same]
  | .int _, b => by cases b <;> simp [Json.same]
  | .float _, b => by cases b <;> simp [Json.same]
  | .str _, b => by cases b <;> simp [Json.same]
  | .arr as, b => by cases b <;> simp [Json.same, Json.sameItems_iff as]
  | .obj as, b => by cases b <;> simp [Json.same, Json.sameMembers_iff as]

theorem Json.sameItems_iff : ∀ as bs : List Json, Json.sameItems as bs = true ↔ as = bs
  | [], bs => by cases bs <;> simp [Json.sameItems]
  | a :: as, bs => by cases bs <;> simp [Json.sameItems, Json.same_iff a, Json.sameItems_iff as]

theorem Json.sameMembers_iff :
    ∀ as bs : List (String × Json), Json.sameMembers as bs = true ↔ as = bs
  | [], bs => by cases bs <;> simp [Json.sameMembers]
  | (k, a) :: as, bs => by
    cases bs <;> simp [Json.sameMembers, Json.same_iff a, Json.sameMembers_iff as, Prod.ext_iff]

end

instance : DecidableEq Json := fun a b => decidable_of_iff (a.same b = true) (Json.same_iff a b)

/-- The members of a JSON object. -/
abbrev Members := List (String × Json)

/-- `obj.get(key, default)`. -/
def Members.getD (obj : Members) (key : String) (default : Json) : Json :=
  (obj.lookup key).getD default

/-- `obj.get(key)`. -/
def Members.get (obj : Members) (key : String) : Json := obj.getD key .null

structure OutputFormat where
  container : String
  encoding : String
  sampleRate : Int
deriving DecidableEq

structure VoiceConfig where
  mode : String
  id : String
deriving DecidableEq

/-- A text frame of the client. -/
structure IncomingText where
  contextId : String
  transcript : String
  continue_ : Bool
  voice : VoiceConfig
  outputFormat : OutputFormat
  modelId : Option String := none
  language : Option String := none
  addTimestamps : Bool := false
  useOriginalTimestamps : Bool := false
  generationConfig : Option Members := none
  pronunciationDictId : Option String := none
  extra : Members := []
deriving DecidableEq

/-- `is_flush`: empty transcript and `continue=False`. -/
def IncomingText.isFlush (m : IncomingText) : Bool := m.transcript == "" && !m.continue_

structure IncomingCancel where
  contextId : String
deriving DecidableEq

structure ParseError where
  reason : String
  raw : String
deriving DecidableEq

inductive IncomingMessage where
  | text (m : IncomingText)
  | cancel (m : IncomingCancel)
  | parseError (e : ParseError)
deriving DecidableEq

/-! ## Frames sent to the client -/

/-- PCM bytes. -/
abbrev Bytes := List (BitVec 8)

def base64Alphabet : List Char :=
  "ABCDEFGHIJKLMNOPQRSTUVWXYZabcdefghijklmnopqrstuvwxyz0123456789+/".toList

/-- The base64 digit of a 6-bit number. -/
def base64Digit (n : Nat) : Char := base64Alphabet.getD (n % 64) '='

/-- `base64.b64encode(data).decode("ascii")`, three bytes at a time. -/
def b64encode : Bytes → List Char
  | [] => []
  | [a] =>
    let n := a.toNat * 16
    [base64Digit (n / 64), base64Digit n, '=', '=']
  | [a, b] =>
    let n := (a.toNat * 256 + b.toNat) * 4
    [base64Digit (n / 4096), base64Digit (n / 64), base64Digit n, '=']
  | a :: b :: c :: rest =>
    let n := (a.toNat * 256 + b.toNat) * 256 + c.toNat
    base64Digit (n / 262144) :: base64Digit (n / 4096) :: base64Digit (n / 64) ::
      base64Digit n :: b64encode rest

/-- A frame of the server. -/
inductive ServerFrame where
  | chunk (contextId : String) (pcm : Bytes)
  | done (contextId : String)
  | error (contextId : Option String) (message : String)
deriving DecidableEq

def encodeChunk (contextId : String) (pcm : Bytes) : ServerFrame := .chunk contextId pcm

def encodeDone (contextId : String) : ServerFrame := .done contextId

def encodeError (contextId : Option String) (message : String) : ServerFrame :=
  .error contextId message

/-- The dictionary the encoders hand to `json.dumps`. -/
def ServerFrame.payload : ServerFrame → Members
  | .chunk c pcm =>
    [("type", .str "chunk"), ("context_id", .str c),
      ("data", .str (String.ofList (b64encode pcm)))]
  | .done c => [("type", .str "done"), ("context_id", .str c)]
  | .error none msg => [("type", .str "error"), ("error", .str msg)]
  | .error (some c) msg =>
    [("type", .str "error"), ("error", .str msg), ("context_id", .str c)]

/-- The `context_id` a frame carries, read from its payload. -/
def ServerFrame.contextId? (f : ServerFrame) : Option String :=
  match f.payload.get "context_id" with
  | .str c => some c
  | _ => none

@[simp] theorem contextId?_chunk (c : String) (pcm : Bytes) :
    (encodeChunk c pcm).contextId? = some c := rfl

@[simp] theorem contextId?_done (c : String) : (encodeDone c).contextId? = some c := rfl

@[simp] theorem contextId?_error (c : Option String) (msg : String) :
    (encodeError c msg).contextId? = c := by
  cases c <;> rfl

end SupertonicServer.Wire
