import Haechi.Delimited
import Haechi.Text.Decoder
import Haechi.Text.Json
import Haechi.Proxy.Adapters

/-! Frames of a response stream: how the text is cut into frames, what the payload of a
frame is, and how a frame is written again with another payload. -/

namespace Haechi.Stream

open Text Proxy

/-- What ends a frame. -/
def Format.delimiter : Format → JsString
  | .sse => [10, 10]
  | .ndjson => [10]

/-! ### The splitter -/

/-- `if (raw.trim())`. -/
def notBlank (raw : JsString) : Bool := !(trim raw).isEmpty

/-- `push` of the frame splitter: the whole frames, and the new buffer. -/
def pushText (format : Format) (buffer text : JsString) : List JsString × JsString :=
  let pieces := Delimited.cut (Format.delimiter format) (buffer ++ text)
  (pieces.1.filter notBlank, pieces.2)

/-- `end` of the frame splitter. -/
def endText (buffer text : JsString) : List JsString :=
  if notBlank (buffer ++ text) then [buffer ++ text] else []

/-! ### Payloads -/

/-- `SSE_DATA_LINE`: `/^[ \t]*data:/`. -/
def sseDataLine (line : JsString) : Bool := (js "data:").isPrefixOf (line.dropWhile isBlank)

/-- `sseDataPayload`: `/^[ \t]*data:(.*)$/`, where `.` is no line terminator; a blank after
the colon goes. -/
def sseDataPayload (line : JsString) : Option JsString :=
  let rest := line.dropWhile isBlank
  if (js "data:").isPrefixOf rest then
    let value := rest.drop 5
    if value.any isTerminator then none
    else if value.head? = some 32 then some value.tail
    else some value
  else none

def sseDone : JsString := js "[DONE]"

/-- What the body of a frame is. -/
inductive Parsed (ν : Type) where
  | json (value : JsValue ν)
  /-- There is nothing in it to inspect. -/
  | control
  /-- Content that is no JSON. -/
  | text (payload : JsString)

variable {ν : Type} [JsNumber ν]

def parsePayload (payload : JsString) : Parsed ν :=
  match Json.parse payload with
  | some value => .json value
  | none => .text payload

/-- `parseFrame`. -/
def parseFrame (format : Format) (body : JsString) : Parsed ν :=
  match format with
  | .sse =>
    if body.isEmpty then .control
    else
      let dataLines := (splitLines body).filterMap sseDataPayload
      if dataLines.isEmpty then .control
      else
        let payload := joinLines dataLines
        if payload = sseDone then .control else parsePayload payload
  | .ndjson => if body.isEmpty then .control else parsePayload body

/-! ### Writing -/

/-- The lines of a frame with new lines in the place of its first data line; the other data
lines go. -/
def replaceData (new : List JsString) : List JsString → List JsString
  | [] => new
  | line :: lines =>
    if sseDataLine line then new ++ lines.filter fun line => !sseDataLine line
    else line :: replaceData new lines

/-- The lines of the raw text of a frame. -/
def frameLines (raw : JsString) : List JsString := splitLines (raw.rdropWhile (· == 10))

def dataLine (text : JsString) : JsString := js "data: " ++ text

/-- An event with these data lines, and the other fields of the original. -/
def sseFrame (new : List JsString) (original : Option JsString) : JsString :=
  match original with
  | some raw => joinLines (replaceData new (frameLines raw)) ++ [10, 10]
  | none => joinLines new ++ [10, 10]

/-- `serializeFrame`. -/
def serializeFrame (value : JsValue ν) (format : Format) (original : Option JsString) : JsString :=
  let body := (Json.stringify value).getD (js "undefined")
  match format with
  | .sse => sseFrame [dataLine body] original
  | .ndjson => body ++ [10]

/-- `serializeTextFrame`. -/
def serializeTextFrame (text : JsString) (format : Format) (original : JsString) : JsString :=
  match format with
  | .sse => sseFrame ((splitLines text).map dataLine) (some original)
  | .ndjson => text ++ [10]

end Haechi.Stream
