import OrderbookEngine.Core.Types
import OrderbookEngine.Library.TextSearch

/-!
# Requests to the frontend's REST server

The method of a request is searched for anywhere in it, and four characters are skipped behind
the place where it is found. That suits GET at the front of the request. A POST is taken for a
GET when the rest of the request contains one, and otherwise its path is read as empty.
-/

namespace OrderbookEngine.FrontendRestServer

open TextSearch

/-- Remove the query string, if there is one. -/
def removeQuery (path : StdString) : StdString :=
  match find (lit "?") path 0 with
  | some queryPos => path.take queryPos
  | none => path

/-- Where `parse_request_path` finds the method. -/
def methodPos (request : StdString) : Option Nat :=
  match find (lit "GET ") request 0 with
  | some start => some start
  | none => find (lit "POST ") request 0

/-- `parse_request_path`. -/
def parseRequestPath (request : StdString) : StdString :=
  match methodPos request with
  | none => []
  | some pos =>
    let start := pos + 4
    match find (lit " ") request start with
    | none => []
    | some stop => removeQuery ((request.drop start).take (stop - start))

/-- The handlers of the server. -/
structure Handlers where
  symbols : Option (StdString → StdString)
  orderbook : Option (StdString → StdString)

/-- The arguments of `send_response`. -/
structure Response where
  statusCode : Nat
  contentType : StdString
  body : StdString
  deriving DecidableEq

/-- A response with a JSON text. -/
def jsonResponse (statusCode : Nat) (body : StdString) : Response :=
  ⟨statusCode, lit "application/json", body⟩

/-- The routes of `handle_request`. -/
def route (handlers : Handlers) (path : StdString) : Response :=
  if path = lit "/api/v1/health" then
    jsonResponse 200 (lit "\x7b\"status\":\"healthy\",\"service\":\"crypto-orderbook-engine\"\x7d")
  else if path = lit "/api/v1/symbols" then
    match handlers.symbols with
    | some handler => jsonResponse 200 (handler [])
    | none => jsonResponse 200 (lit "\x7b\"symbols\":[\"BTC-USD\",\"ETH-USD\"]\x7d")
  else if find (lit "/api/v1/orderbook/") path 0 = some 0 then
    match handlers.orderbook with
    | some handler => jsonResponse 200 (handler (path.drop 18))
    | none => jsonResponse 500 (lit "\x7b\"error\":\"Order book handler not configured\"\x7d")
  else jsonResponse 404 (lit "\x7b\"error\":\"Endpoint not found\"\x7d")

/-- `handle_request` on the bytes that one `recv` can deliver: the request is what the buffer
holds up to a NUL, and without bytes there is no answer. -/
def handleRequest (handlers : Handlers) (received : StdString) : Option Response :=
  let buffer := received.take 4095
  if buffer = [] then none
  else some (route handlers (parseRequestPath (buffer.takeWhile (· ≠ 0))))

/-- The methods of a request. -/
inductive Method where
  | get
  | post
  deriving DecidableEq, Repr

def Method.name : Method → StdString
  | .get => lit "GET"
  | .post => lit "POST"

/-- A request: its line, and everything behind the protocol's name. -/
def request (method : Method) (target rest : StdString) : StdString :=
  method.name ++ lit " " ++ target ++ lit " HTTP/" ++ rest

/-- The path that a target names. -/
def pathOf (target : StdString) : StdString := target.takeWhile (· ≠ 63)

/-- The path is that of the request line, and so is the route. -/
def ReadsLine (method : Method) (target rest : StdString) : Prop :=
  parseRequestPath (request method target rest) = pathOf target ∧
    ∀ handlers, route handlers (parseRequestPath (request method target rest)) =
      route handlers (pathOf target)

/-- A GET; or a POST whose first `GET ` is followed by the path of its target and a space; or
one without any, whose target has no path. -/
def NamesPath (target rest : StdString) : Method → Prop
  | .get => True
  | .post =>
    match find (lit "GET ") (request .post target rest) 0 with
    | none => pathOf target = []
    | some pos =>
      let behind := (request .post target rest).drop (pos + 4)
      if 32 ∈ behind then pathOf (behind.takeWhile (· ≠ 32)) = pathOf target
      else pathOf target = []

section Parsing

theorem removeQuery_eq (path : StdString) : removeQuery path = pathOf path := by
  unfold removeQuery pathOf
  by_cases hmem : (63 : UInt8) ∈ path
  · obtain ⟨rest, hrest⟩ := eq_takeWhile_append hmem
    have hfind : find [63] path 0 = some (0 + (path.takeWhile (· ≠ 63)).length) :=
      find_singleton 0 hrest (not_mem_takeWhile_ne 63 path)
    have htake := congrArg (List.take (path.takeWhile (· ≠ 63)).length) hrest
    rw [show lit "?" = [63] from rfl, hfind, Nat.zero_add]
    exact htake.trans (List.take_left' rfl)
  · have hfind : find [63] path 0 = none := find_singleton_eq_none 0 hmem
    rw [show lit "?" = [63] from rfl, hfind]
    exact (takeWhile_ne_eq_self hmem).symm

/-- The text of the path, between a place and the next space. -/
theorem parse_of_methodPos {request front : StdString} (rest : StdString) (pos : Nat)
    (hpos : methodPos request = some pos) (hdrop : request.drop (pos + 4) = front ++ 32 :: rest)
    (hfront : 32 ∉ front) : parseRequestPath request = pathOf front := by
  have hstop := find_singleton (pos + 4) hdrop hfront
  simp only [parseRequestPath, hpos]
  rw [show lit " " = [32] from rfl, hstop]
  show removeQuery ((request.drop (pos + 4)).take (pos + 4 + front.length - (pos + 4))) = _
  rw [hdrop, Nat.add_sub_cancel_left, List.take_left' rfl, removeQuery_eq]

theorem parse_of_no_space {request : StdString} {pos : Nat} (hpos : methodPos request = some pos)
    (hnone : 32 ∉ request.drop (pos + 4)) : parseRequestPath request = [] := by
  have hstop := find_singleton_eq_none (pos + 4) hnone
  simp only [parseRequestPath, hpos]
  rw [show lit " " = [32] from rfl, hstop]

/-- Behind the method's place the path goes on to the next space. -/
theorem parse_behind {request : StdString} {pos : Nat} (hpos : methodPos request = some pos) :
    parseRequestPath request =
      if 32 ∈ request.drop (pos + 4) then pathOf ((request.drop (pos + 4)).takeWhile (· ≠ 32))
      else [] := by
  split
  · next hmem =>
    obtain ⟨rest, hrest⟩ := eq_takeWhile_append hmem
    exact parse_of_methodPos rest pos hpos hrest (not_mem_takeWhile_ne 32 _)
  · next hmem => exact parse_of_no_space hpos hmem

theorem parse_get {target : StdString} (hspace : 32 ∉ target) (rest : StdString) :
    parseRequestPath (request .get target rest) = pathOf target := by
  have hrequest : request .get target rest =
      lit "GET " ++ (target ++ 32 :: (lit "HTTP/" ++ rest)) := by
    simp [request, Method.name, lit]
  refine parse_of_methodPos (lit "HTTP/" ++ rest) 0 ?_ ?_ hspace
  · rw [methodPos, hrequest, find_prefix]
  · rw [hrequest]
    rfl

/-- Without a GET four characters of the method and its space are skipped: all but the space. -/
theorem parse_post_of_none {target rest : StdString}
    (hnone : find (lit "GET ") (request .post target rest) 0 = none) :
    parseRequestPath (request .post target rest) = [] := by
  have hrequest : request .post target rest =
      lit "POST " ++ (target ++ 32 :: (lit "HTTP/" ++ rest)) := by
    simp [request, Method.name, lit]
  refine parse_of_methodPos (target ++ 32 :: (lit "HTTP/" ++ rest)) 0 ?_ ?_ List.not_mem_nil
  · rw [methodPos, hnone, hrequest, find_prefix]
  · rw [hrequest]
    rfl

end Parsing

/-- The path is read off the request line in every GET, and in a POST only by coincidence. -/
theorem readsLine_iff_namesPath (method : Method) (target rest : StdString)
    (hspace : 32 ∉ target) : ReadsLine method target rest ↔ NamesPath target rest method := by
  have hpath : ReadsLine method target rest ↔
      parseRequestPath (request method target rest) = pathOf target :=
    ⟨And.left, fun h => ⟨h, fun handlers => by rw [h]⟩⟩
  rw [hpath]
  cases method with
  | get => exact iff_of_true (parse_get hspace rest) trivial
  | post =>
    unfold NamesPath
    cases hget : find (lit "GET ") (request .post target rest) 0 with
    | none =>
      rw [parse_post_of_none hget]
      exact eq_comm
    | some pos =>
      have hpos : methodPos (request .post target rest) = some pos := by rw [methodPos, hget]
      rw [parse_behind hpos]
      dsimp only
      split
      · exact Iff.rfl
      · exact eq_comm

/-- A GET that one `recv` delivers whole, without NUL, is answered by the route of its target. -/
theorem handleRequest_get (handlers : Handlers) {target : StdString} (hspace : 32 ∉ target)
    {rest : StdString} (hlen : (request .get target rest).length ≤ 4095)
    (hnul : 0 ∉ request .get target rest) :
    handleRequest handlers (request .get target rest) = some (route handlers (pathOf target)) := by
  have hne : request .get target rest ≠ [] := by simp [request, Method.name, lit]
  unfold handleRequest
  rw [List.take_of_length_le hlen, if_neg hne, takeWhile_ne_eq_self hnul, parse_get hspace]

theorem readsLine_iff_namesPath_query :
    ReadsLine .get (lit "/api/v1/symbols?limit=2") (lit "1.1\r\nX: GET /\r\n\r\n") ↔
      NamesPath (lit "/api/v1/symbols?limit=2") (lit "1.1\r\nX: GET /\r\n\r\n") .get :=
  readsLine_iff_namesPath _ _ _ (by decide)

/-- The path of a POST is read as empty. -/
theorem readsLine_fails :
    ¬ ∀ (method : Method) (target rest : StdString), target ≠ [] → 32 ∉ target →
      ReadsLine method target rest := by
  intro h
  have hpath := (h .post (lit "/api/v1/health") (lit "1.1") (by decide) (by decide)).1
  revert hpath
  decide +kernel

end OrderbookEngine.FrontendRestServer
