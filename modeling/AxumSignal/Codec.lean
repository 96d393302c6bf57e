import AxumSignal.Protocol

/-! The two codecs, the frame conversions of `HubClient`, and the transport between a client
and its connection. The serde formats and the transport are parameters. -/
namespace AxumSignal

variable {E V : Type}

/-- `WsCodec` at one type of values. -/
structure WsCodec (E V : Type) where
  decode : Message → Except E V
  encode : V → Except E Message

/-- `serde_json` at one type: `to_string`, `from_str` and `from_slice`. -/
structure SerdeJson (E V : Type) where
  toString : V → Except E String
  fromStr : String → Except E V
  fromSlice : List UInt8 → Except E V

inductive JsonCodecError (E : Type) where
  | unexpectedMessageType
  | serde (error : E)
  deriving DecidableEq

/-- `JsonCodec`: text frames out, text and binary frames in. -/
def jsonCodec (json : SerdeJson E V) : WsCodec (JsonCodecError E) V where
  decode
    | .text text => (json.fromStr text).mapError .serde
    | .binary data => (json.fromSlice data).mapError .serde
    | _ => .error .unexpectedMessageType
  encode value := ((json.toString value).map .text).mapError .serde

/-- `postcard` at one type: `to_stdvec` and `from_bytes`. -/
structure Postcard (E V : Type) where
  toStdvec : V → Except E (List UInt8)
  fromBytes : List UInt8 → Except E V

inductive BinaryCodecError (E : Type) where
  | expectedBinary
  | postcard (error : E)
  deriving DecidableEq

/-- `BinaryCodec`: binary frames both ways. -/
def binaryCodec (postcard : Postcard E V) : WsCodec (BinaryCodecError E) V where
  decode
    | .binary data => (postcard.fromBytes data).mapError .postcard
    | _ => .error .expectedBinary
  encode value := ((postcard.toStdvec value).map .binary).mapError .postcard

/-- The value of a frame, if it decodes. -/
def WsCodec.accept (codec : WsCodec E V) (msg : Message) : Option V :=
  (codec.decode msg).toOption

/-- A data frame; the others are control frames. -/
def Message.IsData : Message → Prop
  | .text _ | .binary _ => True
  | _ => False

/-- What the codec encodes is a data frame that decodes to the same value. -/
structure WsCodec.Lawful (codec : WsCodec E V) : Prop where
  data : ∀ value msg, codec.encode value = .ok msg → msg.IsData
  decode : ∀ value msg, codec.encode value = .ok msg → codec.decode msg = .ok value

/-- The format decodes what it encoded to an equal value. -/
def SerdeJson.RoundTrips (json : SerdeJson E V) : Prop :=
  ∀ value text, json.toString value = .ok text → json.fromStr text = .ok value

/-- The format decodes what it encoded to an equal value. -/
def Postcard.RoundTrips (postcard : Postcard E V) : Prop :=
  ∀ value data, postcard.toStdvec value = .ok data → postcard.fromBytes data = .ok value

/-- A JSON Boolean with `space` around it. -/
def readBool {α : Type} [DecidableEq α] (space yes no input : List α) : Except Unit Bool :=
  let token := ((input.dropWhile (· ∈ space)).reverse.dropWhile (· ∈ space)).reverse
  if token = yes then .ok true else if token = no then .ok false else .error ()

/-- `serde_json` at `bool`. -/
def boolJson : SerdeJson Unit Bool where
  toString
    | true => .ok "true"
    | false => .ok "false"
  fromStr text :=
    readBool [' ', '\n', '\t', '\r'] "true".toList "false".toList text.toList
  fromSlice :=
    readBool [32, 10, 9, 13] [116, 114, 117, 101] [102, 97, 108, 115, 101]

/-- `postcard` at `bool`: one byte, and what follows it is not read. -/
def boolPostcard : Postcard Unit Bool where
  toStdvec
    | true => .ok [1]
    | false => .ok [0]
  fromBytes
    | 1 :: _ => .ok true
    | 0 :: _ => .ok false
    | _ => .error ()

theorem boolJson_roundTrips : boolJson.RoundTrips := by
  rintro (- | -) text h <;> obtain rfl := Except.ok.inj h <;> rfl

theorem boolPostcard_roundTrips : boolPostcard.RoundTrips := by
  rintro (- | -) data h <;> obtain rfl := Except.ok.inj h <;> rfl

theorem jsonCodec_encode {json : SerdeJson E V} {value : V} {msg : Message}
    (h : (jsonCodec json).encode value = .ok msg) :
    ∃ text, json.toString value = .ok text ∧ msg = .text text := by
  cases htext : json.toString value with
  | error e => simp [jsonCodec, htext, Except.map, Except.mapError] at h
  | ok text =>
    simp only [jsonCodec, htext, Except.map, Except.mapError, Except.ok.injEq] at h
    exact ⟨text, rfl, h.symm⟩

theorem binaryCodec_encode {postcard : Postcard E V} {value : V} {msg : Message}
    (h : (binaryCodec postcard).encode value = .ok msg) :
    ∃ data, postcard.toStdvec value = .ok data ∧ msg = .binary data := by
  cases hdata : postcard.toStdvec value with
  | error e => simp [binaryCodec, hdata, Except.map, Except.mapError] at h
  | ok data =>
    simp only [binaryCodec, hdata, Except.map, Except.mapError, Except.ok.injEq] at h
    exact ⟨data, rfl, h.symm⟩

theorem jsonCodec_lawful {json : SerdeJson E V} (h : json.RoundTrips) :
    (jsonCodec json).Lawful := by
  constructor
  · intro value msg hencode
    obtain ⟨text, -, rfl⟩ := jsonCodec_encode hencode
    trivial
  · intro value msg hencode
    obtain ⟨text, htext, rfl⟩ := jsonCodec_encode hencode
    simp [jsonCodec, h value text htext, Except.mapError]

theorem binaryCodec_lawful {postcard : Postcard E V} (h : postcard.RoundTrips) :
    (binaryCodec postcard).Lawful := by
  constructor
  · intro value msg hencode
    obtain ⟨data, -, rfl⟩ := binaryCodec_encode hencode
    trivial
  · intro value msg hencode
    obtain ⟨data, hdata, rfl⟩ := binaryCodec_encode hencode
    simp [binaryCodec, h value data hdata, Except.mapError]

/-- `tungstenite::Message`; `frame` is a raw frame. -/
inductive TungMessage where
  | text (text : String)
  | binary (data : List UInt8)
  | ping (data : List UInt8)
  | pong (data : List UInt8)
  | close (frame : Option (UInt16 × String))
  | frame (data : List UInt8)
  deriving DecidableEq

/-- `axum_to_tung`, which drops the code and reason of a Close frame. -/
def axumToTung : Message → TungMessage
  | .text text => .text text
  | .binary data => .binary data
  | .ping data => .ping data
  | .pong data => .pong data
  | .close _ => .close none

/-- `tung_to_axum`: data frames only. -/
def tungToAxum : TungMessage → Option Message
  | .text text => some (.text text)
  | .binary data => some (.binary data)
  | _ => none

/-- What each end receives for a frame the other end sends. Data frames arrive as they are,
control frames as control frames of the same kind, and raw frames are not shown to the server. -/
structure Transport where
  toClient : Message → TungMessage
  toServer : TungMessage → Option Message
  client_text : ∀ text, toClient (.text text) = .text text
  client_binary : ∀ data, toClient (.binary data) = .binary data
  client_ping : ∀ data, ∃ data', toClient (.ping data) = .ping data'
  client_pong : ∀ data, ∃ data', toClient (.pong data) = .pong data'
  client_close : ∀ frame, ∃ frame', toClient (.close frame) = .close frame'
  server_text : ∀ text, toServer (.text text) = some (.text text)
  server_binary : ∀ data, toServer (.binary data) = some (.binary data)
  server_ping : ∀ data, ∃ data', toServer (.ping data) = some (.ping data')
  server_pong : ∀ data, ∃ data', toServer (.pong data) = some (.pong data')
  server_close : ∀ frame, ∃ frame', toServer (.close frame) = some (.close frame')
  server_frame : ∀ data, toServer (.frame data) = none

/-- A transport that changes nothing. -/
def Transport.plain : Transport where
  toClient
    | .text text => .text text
    | .binary data => .binary data
    | .ping data => .ping data
    | .pong data => .pong data
    | .close frame => .close frame
  toServer
    | .text text => some (.text text)
    | .binary data => some (.binary data)
    | .ping data => some (.ping data)
    | .pong data => some (.pong data)
    | .close frame => some (.close frame)
    | .frame _ => none
  client_text _ := rfl
  client_binary _ := rfl
  client_ping data := ⟨data, rfl⟩
  client_pong data := ⟨data, rfl⟩
  client_close frame := ⟨frame, rfl⟩
  server_text _ := rfl
  server_binary _ := rfl
  server_ping data := ⟨data, rfl⟩
  server_pong data := ⟨data, rfl⟩
  server_close frame := ⟨frame, rfl⟩
  server_frame _ := rfl

/-- The data frames of the server reach the decoder of the client unchanged, control frames
do not reach it. -/
theorem tungToAxum_toClient (link : Transport) (msg : Message) :
    tungToAxum (link.toClient msg) = match msg with
      | .text text => some (.text text)
      | .binary data => some (.binary data)
      | _ => none := by
  cases msg with
  | text text => rw [link.client_text]; rfl
  | binary data => rw [link.client_binary]; rfl
  | ping data =>
    obtain ⟨data', h⟩ := link.client_ping data
    rw [h]
    rfl
  | pong data =>
    obtain ⟨data', h⟩ := link.client_pong data
    rw [h]
    rfl
  | close frame =>
    obtain ⟨frame', h⟩ := link.client_close frame
    rw [h]
    rfl

/-- The data frames of the client reach the read loop unchanged. -/
theorem toServer_axumToTung (link : Transport) {msg : Message} (h : msg.IsData) :
    link.toServer (axumToTung msg) = some msg := by
  cases msg with
  | text text => exact link.server_text text
  | binary data => exact link.server_binary data
  | _ => exact h.elim

end AxumSignal
