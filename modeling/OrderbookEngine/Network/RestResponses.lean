import OrderbookEngine.Library.HttpResponse
import OrderbookEngine.Network.FrontendRequests
import OrderbookEngine.Network.MessageFormatter

/-!
# Responses of the frontend's REST server

A client that reads the length of the body from the header gets the status and the body of the
handler, whatever bytes the body holds, and nothing of what follows.
-/

namespace OrderbookEngine.FrontendRestServer

open Decimal

/-- The name of a status in `send_response`. -/
def statusText (statusCode : Nat) : StdString :=
  match statusCode with
  | 200 => lit "OK"
  | 404 => lit "Not Found"
  | 500 => lit "Internal Server Error"
  | _ => lit "Unknown"

/-- `get_cors_headers`. -/
def getCorsHeaders : StdString :=
  lit "Access-Control-Allow-Origin: *\r\n" ++
    lit "Access-Control-Allow-Methods: GET, POST, OPTIONS\r\n" ++
    lit "Access-Control-Allow-Headers: Content-Type\r\n"

/-- What `send_response` sends. -/
def sendResponse (r : Response) : StdString :=
  lit "HTTP/1.1 " ++ decimal r.statusCode ++ lit " " ++ statusText r.statusCode ++ lit "\r\n" ++
    lit "Content-Type: " ++ r.contentType ++ lit "\r\n" ++
    lit "Content-Length: " ++ decimal r.body.length ++ lit "\r\n" ++
    getCorsHeaders ++
    lit "Connection: close\r\n" ++
    lit "\r\n" ++
    r.body

/-- The response with its header fields. -/
def framed (r : Response) : Http.Response where
  status := r.statusCode
  reason := statusText r.statusCode
  fields := [(lit "Content-Type", r.contentType), (lit "Content-Length", digits r.body.length),
    (lit "Access-Control-Allow-Origin", lit "*"),
    (lit "Access-Control-Allow-Methods", lit "GET, POST, OPTIONS"),
    (lit "Access-Control-Allow-Headers", lit "Content-Type"), (lit "Connection", lit "close")]
  body := r.body

/-- What every response has. -/
theorem responseLiterals : lit "HTTP/1.1 " = Http.version ∧ lit " " = [32] ∧ lit "\r\n" = [13, 10] ∧
    lit "Content-Length: " = lit "Content-Length" ++ [58, 32] ∧
    lit "Connection: close\r\n" = Http.printField (lit "Connection", lit "close") := by
  decide +kernel

theorem sendResponse_eq (r : Response) : sendResponse r = Http.print (framed r) := by
  obtain ⟨hversion, hblank, hend, hlength, hclose⟩ := responseLiterals
  have htype : lit "Content-Type: " = lit "Content-Type" ++ [58, 32] := by decide +kernel
  have hcors : getCorsHeaders = [(lit "Access-Control-Allow-Origin", lit "*"),
      (lit "Access-Control-Allow-Methods", lit "GET, POST, OPTIONS"),
      (lit "Access-Control-Allow-Headers", lit "Content-Type")].flatMap Http.printField := by
    decide +kernel
  rw [sendResponse, framed, Http.print, hversion, hblank, hend, htype, hlength, hcors, hclose,
    MessageFormatter.decimal_eq_digits, MessageFormatter.decimal_eq_digits]
  simp [Http.printField]

theorem not_mem_statusText (statusCode : Nat) : 13 ∉ statusText statusCode := by
  unfold statusText
  split
  all_goals decide +kernel

/-- The responses of `handle_request` are JSON texts. -/
theorem contentType_route (handlers : Handlers) (path : StdString) :
    (route handlers path).contentType = lit "application/json" := by
  unfold route
  split_ifs
  · rfl
  · split <;> rfl
  · split <;> rfl
  · rfl

theorem formed_framed {r : Response} (h : r.contentType = lit "application/json") :
    Http.Formed (framed r) where
  reason := not_mem_statusText r.statusCode
  fields := by
    have hlength : Http.FieldFormed (lit "Content-Length", digits r.body.length) :=
      Http.fieldFormed_digits (by decide +kernel) (by decide +kernel) r.body.length
    have htype : Http.FieldFormed (lit "Content-Type", r.contentType) := by
      rw [h]
      decide +kernel
    have hrest : ∀ field ∈ [(lit "Access-Control-Allow-Origin", lit "*"),
        (lit "Access-Control-Allow-Methods", lit "GET, POST, OPTIONS"),
        (lit "Access-Control-Allow-Headers", lit "Content-Type"),
        (lit "Connection", lit "close")], Http.FieldFormed field := by decide +kernel
    exact List.forall_mem_cons.mpr ⟨htype, List.forall_mem_cons.mpr ⟨hlength, hrest⟩⟩
  length := Http.contentLength_append [(lit "Content-Type", r.contentType)]
    (by simpa using (by decide +kernel : (lit "Content-Type").map Http.lower ≠ Http.lengthName))
    (by decide +kernel) r.body.length

/-- Whatever a client sends, it can tell the status and the body of the answer from what it
receives, and what follows is left to it. -/
theorem answer_parses (handlers : Handlers) {received : StdString} (h : received ≠ [])
    (rest : StdString) : ∃ answer, handleRequest handlers received = some answer ∧
      Http.parse (sendResponse answer ++ rest) = some (framed answer, rest) := by
  have hbuffer : received.take 4095 ≠ [] := by simpa using h
  refine ⟨_, if_neg hbuffer, ?_⟩
  rw [sendResponse_eq]
  exact Http.parse_print (formed_framed (contentType_route _ _)) rest

/-- A handler may answer with the header of another response. -/
theorem answer_parses_nested : ∃ answer,
    handleRequest
        ⟨none, some fun symbol => lit "HTTP/1.1 404 \r\nContent-Length: 0\r\n\r\n" ++ symbol⟩
        (lit "GET /api/v1/orderbook/BTC-USD HTTP/1.1\r\n\r\n") = some answer ∧
      Http.parse (sendResponse answer ++ lit "\r\n") = some (framed answer, lit "\r\n") :=
  answer_parses _ (by decide +kernel) _

end OrderbookEngine.FrontendRestServer
