import Rurge.Text
import Rurge.Config.Session

/-!
# Captured entries

One request and its response as they were captured, and what an entry costs the store.
-/

namespace Rurge

namespace Capture

/-- What each entry costs besides its header lines, texts and bodies. -/
def ENTRY_OVERHEAD : ℕ := 7168

/-- What the store holds at most: in all, and of each body. -/
structure Limits where
  total : ℕ
  body : ℕ
  deriving DecidableEq

/-- The body limit is lowered to the total. -/
def Limits.new (total body : ℕ) : Limits := ⟨total, min body total⟩

/-- Why a body stops short. -/
inductive Truncated
  | Limit
  | Budget
  deriving DecidableEq

/-- What was kept of a body, how much was seen, and why it stops short. -/
structure Body where
  data : List UInt8
  size : ℕ
  truncated : Option Truncated
  deriving DecidableEq

inductive Version
  | HTTP_09
  | HTTP_10
  | HTTP_11
  | HTTP_2
  | HTTP_3
  deriving DecidableEq

/-- Header lines, each with its value. -/
abbrev HeaderMap := List (Str × List UInt8)

structure Head where
  method : Str
  url : Str
  version : Version
  headers : HeaderMap
  deriving DecidableEq

structure ResponseHead where
  status : ℕ
  version : Version
  headers : HeaderMap
  deriving DecidableEq

/-- What a request took. -/
structure Timings where
  connect : Option ℕ
  dns : Option ℕ
  wait : Option ℕ
  receive : Option ℕ
  total : ℕ
  reused : Bool
  deriving DecidableEq

inductive RejectKind
  | Reject
  | Drop
  | NoDrop
  | TinyGif
  deriving DecidableEq

/-- How a request ended. -/
inductive Outcome
  | Completed
  | Upgraded
  | Rejected (kind : RejectKind)
  | Failed
  deriving DecidableEq

/-- One request and its response as they were captured. -/
structure Entry where
  id : ℕ
  session : Str
  started : ℤ
  request : Head
  request_body : Body
  response : Option ResponseHead
  response_body : Body
  timings : Timings
  remote : Option (IpAddr × UInt16)
  outcome : Outcome
  error : Option Str
  rule : Option Str
  policy : List Str
  notes : List Str
  deriving DecidableEq

/-- What one side's header lines cost: name, value and 32 bytes each. -/
def head_cost (headers : HeaderMap) : ℕ :=
  (headers.map fun (name, value) => Str.byteLen name + value.length + 32).sum

/-- What one entry costs the store. -/
def cost (entry : Entry) : ℕ :=
  ENTRY_OVERHEAD + Str.byteLen entry.request.url + Str.byteLen entry.request.method +
    head_cost entry.request.headers + entry.request_body.data.length +
    entry.response_body.data.length +
    (entry.response.elim 0 fun response => head_cost response.headers) +
    (entry.rule.elim 0 Str.byteLen) + (entry.error.elim 0 Str.byteLen) +
    (entry.policy.map Str.byteLen).sum + (entry.notes.map Str.byteLen).sum

/-- The headers with every value in an allocation of its own. -/
def owned (headers : HeaderMap) : HeaderMap := headers.map fun (name, value) => (name, value)

/-- An entry with its two header sets copied. -/
def Entry.owned (entry : Entry) : Entry :=
  { entry with
    request := { entry.request with headers := Capture.owned entry.request.headers }
    response := entry.response.map fun response =>
      { response with headers := Capture.owned response.headers } }

end Capture

end Rurge
