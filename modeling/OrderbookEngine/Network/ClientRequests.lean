import OrderbookEngine.Library.CompactJson
import OrderbookEngine.Library.TextSearch
import OrderbookEngine.Network.WebSocketServer

/-!
# Requests of clients

`on_message` searches a request for fixed pieces of text. So it reads what the JSON object says
only if the object is printed without blanks around these pieces and without escapes, and if
nothing else in it looks like them.
-/

namespace OrderbookEngine.WebSocketServer

open Json TextSearch

variable {H : Type} [LinearOrder H]

/-- `payload.substr(start, end - start)`, the end being the next quote, if there is one. -/
def untilQuote (payload : StdString) (start : ℕ) : StdString :=
  match find (lit "\"") payload start with
  | some stop => (payload.drop start).take (stop - start)
  | none => payload.drop start

/-- The symbol that is extracted from a payload. -/
def extractSymbol (payload : StdString) : Option StdString :=
  match find (lit "\"symbol\":\"") payload 0 with
  | some symbolPos => some (untilQuote payload (symbolPos + 10))
  | none => none

/-- A channel, if its name stands in quotes anywhere in the payload. -/
def extractChannel (payload channel : StdString) : List StdString :=
  if find (lit "\"" ++ channel ++ lit "\"") payload 0 ≠ none then [channel] else []

/-- The channels that are extracted from a payload. -/
def extractChannels (payload : StdString) : List StdString :=
  extractChannel payload (lit "orderbook") ++ extractChannel payload (lit "trades") ++
    extractChannel payload (lit "analytics")

/-- The call that `on_message` makes, if any. -/
def requestOf (payload : StdString) : Option Request :=
  if find (lit "\"type\":\"subscribe\"") payload 0 ≠ none then
    (extractSymbol payload).map fun symbol => .subscribe symbol (extractChannels payload)
  else if find (lit "\"type\":\"unsubscribe\"") payload 0 ≠ none then
    (extractSymbol payload).map .unsubscribe
  else none

/-- `on_message`. -/
def onMessage (s : WebSocketServer H) (hdl : H) (payload : StdString) : WebSocketServer H :=
  match requestOf payload with
  | some (.subscribe symbol channels) => s.handleSubscribe hdl symbol channels
  | some (.unsubscribe symbol) => s.handleUnsubscribe hdl symbol
  | none => s

/-! ## What a request says -/

/-- The documented form of a request: string fields `type` and `symbol`, and for a subscription
an array `channels` of strings, or no such field. -/
inductive Says (v : Json) : Request → Prop
  | subscribe {symbol : StdString} {channels : List StdString}
      (htype : v.atKey (lit "type") = some (.string (lit "subscribe")))
      (hsymbol : v.atKey (lit "symbol") = some (.string symbol))
      (hchannels : v.atKey (lit "channels") = some (.array (channels.map .string)) ∨
        v.atKey (lit "channels") = none ∧ channels = []) : Says v (.subscribe symbol channels)
  | unsubscribe {symbol : StdString}
      (htype : v.atKey (lit "type") = some (.string (lit "unsubscribe")))
      (hsymbol : v.atKey (lit "symbol") = some (.string symbol)) : Says v (.unsubscribe symbol)

/-- The names of the channels. -/
def channelNames : List StdString := [lit "orderbook", lit "trades", lit "analytics"]

/-- Two calls for one symbol and the same of the channels that there are. -/
def SameCall : Request → Request → Prop
  | .subscribe symbol channels, .subscribe symbol' channels' =>
    symbol = symbol' ∧ ∀ channel ∈ channelNames, channel ∈ channels ↔ channel ∈ channels'
  | .unsubscribe symbol, .unsubscribe symbol' => symbol = symbol'
  | _, _ => False

/-- The call that `on_message` makes is this one. -/
def Performs (payload : StdString) (r : Request) : Prop :=
  ∃ r', requestOf payload = some r' ∧ SameCall r' r

/-- `on_message` makes the call that the payload says, if it is a request in JSON. -/
def ReadAsJson (payload : StdString) : Prop :=
  ∀ v r, Denotes payload v → Says v r → Performs payload r

/-! ## What a request looks like -/

/-- Behind the first `"symbol":"` stands the symbol, up to a quote or the end. -/
structure SymbolStands (payload symbol : StdString) : Prop where
  unquoted : 34 ∉ symbol
  behind : ∃ front back, payload = front ++ lit "\"symbol\":\"" ++ symbol ++ back ∧
    (back = [] ∨ back.head? = some 34) ∧
      ∀ j < front.length, ¬ lit "\"symbol\":\"" <+: payload.drop j

/-- The payload has the type without blanks, it has the symbol without blanks and escapes, and
it has the names of those channels in quotes, and of no others. -/
def LooksLike (payload : StdString) : Request → Prop
  | .subscribe symbol channels =>
    lit "\"type\":\"subscribe\"" <:+: payload ∧ SymbolStands payload symbol ∧
      ∀ channel ∈ channelNames, lit "\"" ++ channel ++ lit "\"" <:+: payload ↔ channel ∈ channels
  | .unsubscribe symbol =>
    ¬ lit "\"type\":\"subscribe\"" <:+: payload ∧ lit "\"type\":\"unsubscribe\"" <:+: payload ∧
      SymbolStands payload symbol

theorem find_ne_none_iff {pattern s : StdString} : find pattern s 0 ≠ none ↔ pattern <:+: s := by
  constructor
  · intro h
    obtain ⟨pos, hpos⟩ := Option.ne_none_iff_exists'.mp h
    exact ⟨_, _, (eq_append_of_find hpos).symm⟩
  · exact find_ne_none_of_occurs

theorem untilQuote_eq (payload : StdString) (start : ℕ) :
    untilQuote payload start = (payload.drop start).takeWhile (· ≠ 34) := by
  have hlit : lit "\"" = [34] := rfl
  rw [untilQuote, hlit]
  by_cases hmem : 34 ∈ payload.drop start
  · obtain ⟨rest, hrest⟩ := eq_takeWhile_append hmem
    rw [find_singleton start hrest (not_mem_takeWhile_ne 34 _)]
    dsimp only
    rw [Nat.add_sub_cancel_left]
    exact (List.prefix_iff_eq_take.mp (List.takeWhile_prefix _)).symm
  · rw [find_singleton_eq_none start hmem, takeWhile_ne_eq_self hmem]

theorem extractSymbol_eq_some_iff {payload symbol : StdString} :
    extractSymbol payload = some symbol ↔ SymbolStands payload symbol := by
  constructor
  · intro h
    rw [extractSymbol] at h
    split at h
    · next pos hpos =>
      rw [Option.some.injEq, untilQuote_eq] at h
      subst h
      obtain ⟨-, hle, -, hfirst⟩ := find_eq_some_iff.mp hpos
      have hpayload := eq_append_of_find hpos
      have hfront : ∀ j < (payload.take pos).length, ¬ lit "\"symbol\":\"" <+: payload.drop j := by
        rw [List.length_take_of_le hle]
        exact fun j hj => hfirst j (Nat.zero_le j) hj
      refine ⟨not_mem_takeWhile_ne 34 _, payload.take pos, ?_⟩
      by_cases hmem : 34 ∈ payload.drop (pos + 10)
      · obtain ⟨rest, hrest⟩ := eq_takeWhile_append hmem
        refine ⟨34 :: rest, ?_, .inr rfl, hfront⟩
        rw [List.append_assoc, ← hrest]
        exact hpayload
      · refine ⟨[], ?_, .inl rfl, hfront⟩
        rw [takeWhile_ne_eq_self hmem, List.append_nil]
        exact hpayload
    · cases h
  · rintro ⟨hunquoted, front, back, hpayload, hback, hfirst⟩
    have hfind : find (lit "\"symbol\":\"") payload 0 = some front.length := by
      refine find_eq_some_iff.mpr ⟨Nat.zero_le _, ?_, ?_, fun j _ hj => hfirst j hj⟩
      · rw [hpayload]
        simp only [List.length_append]
        omega
      · rw [hpayload, List.append_assoc, List.append_assoc, List.drop_left]
        exact List.prefix_append _ _
    have hdrop : payload.drop (front.length + 10) = symbol ++ back := by
      have hlength : front.length + 10 = (front ++ lit "\"symbol\":\"").length := by
        rw [List.length_append]
        rfl
      rw [hlength, hpayload, List.append_assoc (front ++ _), List.drop_left]
    have hword : (symbol ++ back).takeWhile (· ≠ 34) = symbol := by
      have hpos : ∀ c ∈ symbol, decide (c ≠ 34) = true := fun c hc =>
        decide_eq_true fun h => hunquoted (h ▸ hc)
      rw [List.takeWhile_append_of_pos hpos]
      obtain rfl | hhead := hback
      · rw [List.takeWhile_nil, List.append_nil]
      · obtain ⟨rest, rfl⟩ := List.head?_eq_some_iff.mp hhead
        rw [List.takeWhile_cons_of_neg (by decide), List.append_nil]
    simp only [extractSymbol, hfind, untilQuote_eq, hdrop, hword]

theorem mem_extractChannels_iff {payload channel : StdString} (h : channel ∈ channelNames) :
    channel ∈ extractChannels payload ↔ lit "\"" ++ channel ++ lit "\"" <:+: payload := by
  have hmem : ∀ name, channel ∈ extractChannel payload name ↔
      channel = name ∧ lit "\"" ++ channel ++ lit "\"" <:+: payload := by
    intro name
    rw [extractChannel, ← find_ne_none_iff]
    split
    · next hfound =>
      rw [List.mem_singleton]
      exact ⟨fun hname => ⟨hname, hname ▸ hfound⟩, And.left⟩
    · next hfound =>
      exact iff_of_false List.not_mem_nil fun ⟨hname, hyes⟩ => hfound (hname ▸ hyes)
  simp only [channelNames, List.mem_cons, List.not_mem_nil, or_false] at h
  simp only [extractChannels, List.mem_append, hmem, ← or_and_right, or_assoc]
  exact and_iff_right h

/-- The code makes a call exactly for a payload that looks like it. -/
theorem performs_iff {payload : StdString} {r : Request} :
    Performs payload r ↔ LooksLike payload r := by
  rw [Performs, requestOf]
  simp only [find_ne_none_iff]
  by_cases hsubscribe : lit "\"type\":\"subscribe\"" <:+: payload
  · simp only [if_pos hsubscribe, Option.map_eq_some_iff, extractSymbol_eq_some_iff]
    cases r with
    | subscribe symbol channels =>
      constructor
      · rintro ⟨_, ⟨symbol', hsymbol, rfl⟩, rfl, hchannels⟩
        exact ⟨hsubscribe, hsymbol, fun channel h =>
          (mem_extractChannels_iff h).symm.trans (hchannels channel h)⟩
      · rintro ⟨-, hsymbol, hchannels⟩
        exact ⟨_, ⟨symbol, hsymbol, rfl⟩, rfl, fun channel h =>
          (mem_extractChannels_iff h).trans (hchannels channel h)⟩
    | unsubscribe symbol =>
      constructor
      · rintro ⟨_, ⟨_, -, rfl⟩, hsame⟩
        exact hsame.elim
      · rintro ⟨hnot, -⟩
        exact absurd hsubscribe hnot
  · simp only [if_neg hsubscribe]
    cases r with
    | subscribe symbol channels =>
      refine iff_of_false ?_ fun h => hsubscribe h.1
      rintro ⟨r', hr', hsame⟩
      split at hr'
      · obtain ⟨_, -, rfl⟩ := Option.map_eq_some_iff.mp hr'
        exact hsame
      · cases hr'
    | unsubscribe symbol =>
      by_cases hunsubscribe : lit "\"type\":\"unsubscribe\"" <:+: payload
      · simp only [if_pos hunsubscribe, Option.map_eq_some_iff, extractSymbol_eq_some_iff]
        constructor
        · rintro ⟨_, ⟨_, hsymbol, rfl⟩, rfl⟩
          exact ⟨hsubscribe, hunsubscribe, hsymbol⟩
        · rintro ⟨-, -, hsymbol⟩
          exact ⟨_, ⟨symbol, hsymbol, rfl⟩, rfl⟩
      · rw [if_neg hunsubscribe]
        refine iff_of_false ?_ fun h => hunsubscribe h.2.1
        rintro ⟨_, hr', -⟩
        cases hr'

/-! ## What a request changes -/

/-- The channels of a subscription switch on the flags of their names. -/
theorem foldl_activate_eq (channels : List StdString) (sub : ClientSubscription) :
    channels.foldl ClientSubscription.activate sub =
      ⟨sub.symbols, sub.subscribeOrderbook || decide (lit "orderbook" ∈ channels),
        sub.subscribeTrades || decide (lit "trades" ∈ channels),
        sub.subscribeAnalytics || decide (lit "analytics" ∈ channels)⟩ := by
  induction channels generalizing sub with
  | nil => simp
  | cons channel channels ih =>
    have horderbook : lit "orderbook" ≠ lit "trades" ∧ lit "orderbook" ≠ lit "analytics" := by
      decide
    have htrades : lit "trades" ≠ lit "analytics" := by decide
    rw [List.foldl_cons, ih, ClientSubscription.activate]
    split_ifs with h h' h''
    · subst h
      simp [horderbook.1.symm, horderbook.2.symm]
    · subst h'
      simp [horderbook.1, htrades.symm]
    · subst h''
      simp [horderbook.2, htrades]
    · simp [Ne.symm h, Ne.symm h', Ne.symm h'']

/-- Calls that are the same change the same. -/
theorem next_of_sameCall {r r' : Request} (h : SameCall r r') (s : WebSocketServer H) (hdl : H) :
    s.next (.request hdl r) = s.next (.request hdl r') := by
  cases r with
  | subscribe symbol channels =>
    cases r' with
    | subscribe symbol' channels' =>
      obtain ⟨rfl, hchannels⟩ := h
      have hsub : ∀ sub : ClientSubscription,
          sub.subscribe symbol channels = sub.subscribe symbol channels' := by
        intro sub
        rw [ClientSubscription.subscribe, ClientSubscription.subscribe, foldl_activate_eq,
          foldl_activate_eq]
        simp only [hchannels _ (by simp [channelNames] : lit "orderbook" ∈ channelNames),
          hchannels _ (by simp [channelNames] : lit "trades" ∈ channelNames),
          hchannels _ (by simp [channelNames] : lit "analytics" ∈ channelNames)]
      simp only [next, handleSubscribe, hsub]
    | unsubscribe _ => exact h.elim
  | unsubscribe symbol =>
    cases r' with
    | subscribe _ _ => exact h.elim
    | unsubscribe symbol' => rw [show symbol = symbol' from h]

/-- The call that is made is the one that the payload says, so it changes what that changes. -/
theorem onMessage_of_performs {payload : StdString} {r : Request} (h : Performs payload r)
    (s : WebSocketServer H) (hdl : H) : s.onMessage hdl payload = s.next (.request hdl r) := by
  obtain ⟨r', hr', hsame⟩ := h
  rw [← next_of_sameCall hsame, onMessage, hr']
  cases r' with
  | subscribe _ _ => rfl
  | unsubscribe _ => rfl

/-- Payloads of one value that are read as JSON change the same. -/
theorem onMessage_eq_of_denotes {payload payload' : StdString} {v : Json} {r : Request}
    (hread : ReadAsJson payload) (hread' : ReadAsJson payload') (hv : Denotes payload v)
    (hv' : Denotes payload' v) (hr : Says v r) (s : WebSocketServer H) (hdl : H) :
    s.onMessage hdl payload = s.onMessage hdl payload' := by
  rw [onMessage_of_performs (hread v r hv hr), onMessage_of_performs (hread' v r hv' hr)]

/-! ## The expected format -/

/-- A subscription with its channels. -/
def subscribeFields (symbol : StdString) (channels : List StdString) : List (StdString × Json) :=
  [(lit "type", .string (lit "subscribe")), (lit "symbol", .string symbol),
    (lit "channels", .array (channels.map .string))]

/-- A subscription printed without blanks. -/
def subscribeText (symbol : StdString) (channels : List StdString) : StdString :=
  compact (.object (subscribeFields symbol channels))

/-- What stands between the first quote of such a text and its last one, cut at the quotes. -/
def insideQuotes (symbol : StdString) : List StdString → List StdString
  | [] => [lit "type", lit ":", lit "subscribe", lit ",", lit "symbol", lit ":", symbol, lit ",",
      lit "channels"]
  | channel :: channels => lit "type" :: lit ":" :: lit "subscribe" :: lit "," :: lit "symbol" ::
      lit ":" :: symbol :: lit "," :: lit "channels" :: lit ":[" :: channel ::
      channels.flatMap fun channel => [lit ",", channel]

/-- What stands behind the last quote. -/
def behindQuotes : List StdString → StdString
  | [] => lit ":[]\x7d"
  | _ :: _ => lit "]\x7d"

theorem commas_strings (channels : List StdString) (rest : StdString) :
    channels.flatMap (fun channel => 44 :: 34 :: (channel ++ [34])) ++ rest =
      [34].intercalate (channels.flatMap (fun channel => [lit ",", channel]) ++ [rest]) := by
  induction channels with
  | nil => rw [List.flatMap_nil, List.flatMap_nil, List.nil_append, List.nil_append,
      List.intercalate_singleton]
  | cons channel channels ih =>
    have hne : channels.flatMap (fun channel => [lit ",", channel]) ++ [rest] ≠ [] :=
      List.append_ne_nil_of_right_ne_nil _ (List.cons_ne_nil _ _)
    rw [List.flatMap_cons, List.flatMap_cons, List.append_assoc, ih, List.append_assoc]
    change _ = [34].intercalate (lit "," :: channel ::
      (channels.flatMap (fun channel => [lit ",", channel]) ++ [rest]))
    rw [List.intercalate_cons_cons, intercalate_cons 34 channel hne]
    simp [lit]

theorem subscribeText_eq (symbol : StdString) (channels : List StdString) :
    subscribeText symbol channels =
      [34].intercalate
        (lit "\x7b" :: (insideQuotes symbol channels ++ [behindQuotes channels])) := by
  rw [subscribeText, subscribeFields, compact_object]
  cases channels with
  | nil => simp [commas, printField, compact, lit, insideQuotes, behindQuotes]
  | cons channel channels =>
    have hne : channels.flatMap (fun channel => [lit ",", channel]) ++ [lit "]\x7d"] ≠ [] :=
      List.append_ne_nil_of_right_ne_nil _ (List.cons_ne_nil _ _)
    have hstrings := commas_strings channels (lit "]\x7d")
    have hcompact : compact ∘ Json.string = fun channel => 34 :: (channel ++ [34]) := by
      funext channel
      rw [Function.comp_apply, compact]
    rw [insideQuotes, behindQuotes]
    simp [commas, printField, compact, intercalate_cons, hne, ← hstrings, hcompact,
      List.flatMap_map]
    simp [lit]

/-- A channel's name stands in quotes in a subscription only as its symbol or a channel. -/
theorem quoted_infix_subscribeText_iff {symbol : StdString} {channels : List StdString}
    (hsymbol : IsClean symbol) (hchannels : ∀ channel ∈ channels, IsClean channel)
    {name : StdString} (hname : name ∈ channelNames) :
    lit "\"" ++ name ++ lit "\"" <:+: subscribeText symbol channels ↔
      name = symbol ∨ name ∈ channels := by
  have hclean : ∀ {s : StdString}, IsClean s → 34 ∉ s := fun hs hmem => hs 34 hmem (.inl rfl)
  have hparts : ∀ part ∈ lit "\x7b" :: (insideQuotes symbol channels ++ [behindQuotes channels]),
      34 ∉ part := by
    cases channels with
    | nil => simp [insideQuotes, behindQuotes, lit, hclean hsymbol]
    | cons channel channels =>
      have hchannel := hclean (hchannels channel List.mem_cons_self)
      have hmore : ∀ c ∈ channels, 34 ∉ c := fun c hc =>
        hclean (hchannels c (List.mem_cons_of_mem _ hc))
      simp [insideQuotes, behindQuotes, lit, hclean hsymbol, hchannel]
      rintro part (⟨c, hc, rfl | rfl⟩ | rfl)
      · decide
      · exact hmore _ hc
      · decide
  have hnames : ∀ name ∈ channelNames, 34 ∉ name ∧ name ∉ [lit "type", lit ":", lit "subscribe",
      lit ",", lit "symbol", lit "channels", lit ":["] := by decide
  obtain ⟨hnameClean, hother⟩ := hnames name hname
  have hquoted : lit "\"" ++ name ++ lit "\"" = 34 :: (name ++ [34]) := rfl
  rw [hquoted, infix_iff_mem_splitOn hnameClean, subscribeText_eq,
    List.splitOn_intercalate 34 hparts (List.cons_ne_nil _ _), List.tail_cons,
    List.dropLast_concat]
  simp only [List.mem_cons, List.not_mem_nil, or_false, not_or] at hother
  cases channels with
  | nil => simp [insideQuotes, hother]
  | cons channel channels => simp [insideQuotes, hother]

/-- How a subscription begins. -/
theorem subscribeText_front (symbol : StdString) (channels : List StdString) :
    ∃ rest, subscribeText symbol channels =
      lit "\x7b\"type\":\"subscribe\"," ++ lit "\"symbol\":\"" ++ symbol ++ 34 :: rest := by
  refine ⟨lit ",\"channels\":" ++ compact (.array (channels.map .string)) ++ lit "\x7d", ?_⟩
  rw [subscribeText, subscribeFields, compact_object]
  simp [commas, printField, compact, lit]

theorem symbolStands_subscribeText {symbol : StdString} (hsymbol : IsClean symbol)
    (channels : List StdString) : SymbolStands (subscribeText symbol channels) symbol := by
  obtain ⟨rest, htext⟩ := subscribeText_front symbol channels
  refine ⟨fun hmem => hsymbol 34 hmem (.inl rfl), _, _, htext, .inr rfl, fun j hj hstarts => ?_⟩
  -- the pattern would end before the symbol begins
  have hfixed : ∀ j < 20, ¬ lit "\"symbol\":\"" <+:
      (lit "\x7b\"type\":\"subscribe\"," ++ lit "\"symbol\":\"").drop j := by decide
  rw [htext, List.append_assoc, List.drop_append_of_le_length (by simp at hj ⊢; omega)] at hstarts
  refine hfixed j hj (List.prefix_of_prefix_length_le hstarts (List.prefix_append _ _) ?_)
  rw [List.length_drop]
  change 10 ≤ 30 - j
  change j < 20 at hj
  omega

/-- A subscription printed without blanks looks like it if its symbol is not the name of a
channel that it does not ask for. -/
theorem looksLike_subscribeText_iff {symbol : StdString} {channels : List StdString}
    (hsymbol : IsClean symbol) (hchannels : ∀ channel ∈ channels, IsClean channel) :
    LooksLike (subscribeText symbol channels) (.subscribe symbol channels) ↔
      (symbol ∈ channelNames → symbol ∈ channels) := by
  constructor
  · rintro ⟨-, -, hnames⟩ hname
    exact (hnames symbol hname).mp
      ((quoted_infix_subscribeText_iff hsymbol hchannels hname).mpr (.inl rfl))
  · intro h
    refine ⟨?_, symbolStands_subscribeText hsymbol channels, fun channel hchannel => ?_⟩
    · obtain ⟨rest, htext⟩ := subscribeText_front symbol channels
      refine ⟨lit "\x7b", lit ",\"symbol\":\"" ++ symbol ++ 34 :: rest, ?_⟩
      rw [htext]
      simp [lit]
    · rw [quoted_infix_subscribeText_iff hsymbol hchannels hchannel]
      constructor
      · rintro (rfl | hmem)
        · exact h hchannel
        · exact hmem
      · exact .inr

/-! ## When requests are read as JSON -/

/-- A payload is read as JSON if and only if it looks like what it says. -/
theorem readAsJson_iff (payload : StdString) : ReadAsJson payload ↔
    ∀ v r, Denotes payload v → Says v r → LooksLike payload r := by
  simp only [ReadAsJson, performs_iff]

/-- A subscription printed without blanks is read as JSON if its strings are plain and its symbol
is not the name of a channel that it does not ask for. -/
theorem readAsJson_subscribeText {symbol : StdString} {channels : List StdString}
    (hsymbol : IsClean symbol) (hchannels : ∀ channel ∈ channels, IsClean channel)
    (hname : symbol ∈ channelNames → symbol ∈ channels) :
    ReadAsJson (subscribeText symbol channels) := by
  rintro v r ⟨-, hparse⟩ hsays
  have hkeys : ∀ s ∈ [lit "type", lit "subscribe", lit "symbol", lit "channels"], IsClean s := by
    unfold IsClean
    decide +kernel
  simp only [List.forall_mem_cons] at hkeys
  have hstrings : ∀ t ∈ strings (.object (subscribeFields symbol channels)), IsClean t := by
    have harray : strings (.array (channels.map .string)) = channels := by
      rw [strings, List.flatMap_map]
      simp
    rw [forall_strings_object]
    simpa [subscribeFields, harray, hkeys, hsymbol] using hchannels
  have hnumbers : ∀ t ∈ numbers (.object (subscribeFields symbol channels)), IsNumber t := by
    have harray : numbers (.array (channels.map .string)) = [] := by
      rw [numbers, List.flatMap_map]
      simp
    rw [forall_numbers_object]
    simp [subscribeFields, harray]
  rw [subscribeText, parse_compact hstrings hnumbers, Option.some.injEq] at hparse
  subst hparse
  have hr : r = .subscribe symbol channels := by
    have htypeField : (object (subscribeFields symbol channels)).atKey (lit "type") =
        some (.string (lit "subscribe")) := rfl
    have hsymbolField : (object (subscribeFields symbol channels)).atKey (lit "symbol") =
        some (.string symbol) := rfl
    have hchannelsField : (object (subscribeFields symbol channels)).atKey (lit "channels") =
        some (.array (channels.map .string)) := rfl
    cases hsays with
    | subscribe htype hsymbol' hchannels' =>
      rw [hsymbolField, Option.some.injEq, Json.string.injEq] at hsymbol'
      rw [hchannelsField] at hchannels'
      obtain harray | ⟨hnone, -⟩ := hchannels'
      · rw [Option.some.injEq, Json.array.injEq] at harray
        have hinjective : Function.Injective Json.string := fun _ _ => Json.string.inj
        rw [hsymbol', List.map_injective_iff.mpr hinjective harray]
      · cases hnone
    | unsubscribe htype _ =>
      rw [htypeField, Option.some.injEq, Json.string.injEq] at htype
      exact absurd htype (by decide)
  rw [hr, performs_iff, looksLike_subscribeText_iff hsymbol hchannels]
  exact hname

/-- The documented subscription, which has a blank behind each colon. -/
def documentedText : StdString :=
  lit "\x7b\n  \"type\": \"subscribe\",\n  \"symbol\": \"BTCUSD\",\n" ++
    lit "  \"channels\": [\"orderbook\", \"trades\", \"analytics\"]\n\x7d"

theorem string_of_getString {v : Json} {value : StdString} (h : v.getString = some value) :
    v = .string value := by
  cases v with
  | string _ =>
    cases h
    rfl
  | _ => cases h

theorem eq_map_string {elements : List Json} {values : List StdString}
    (h : elements.mapM getString = some values) : elements = values.map .string := by
  induction elements generalizing values with
  | nil =>
    cases h
    rfl
  | cons v elements ih =>
    simp only [List.mapM_cons, Option.bind_eq_bind, Option.bind_eq_some_iff, Option.pure_def,
      Option.some.injEq] at h
    obtain ⟨value, hvalue, values, hvalues, rfl⟩ := h
    rw [string_of_getString hvalue, ih hvalues, List.map_cons]

theorem strings_of_getArray {v : Json} {values : List StdString}
    (h : (v.getArray.bind fun elements => elements.mapM getString) = some values) :
    v = .array (values.map .string) := by
  obtain ⟨elements, harray, hstrings⟩ := Option.bind_eq_some_iff.mp h
  cases v with
  | array _ =>
    cases harray
    rw [eq_map_string hstrings]
  | _ => cases harray

/-- What the documented text says. -/
theorem documentedText_says : ∃ v, parse documentedText = some v ∧
    Says v (.subscribe (lit "BTCUSD") channelNames) := by
  have htype : ((parse documentedText).bind fun v => (v.atKey (lit "type")).bind getString) =
      some (lit "subscribe") := by decide +kernel
  have hsymbol : ((parse documentedText).bind fun v => (v.atKey (lit "symbol")).bind getString) =
      some (lit "BTCUSD") := by decide +kernel
  have hchannels : ((parse documentedText).bind fun v => (v.atKey (lit "channels")).bind fun w =>
      w.getArray.bind fun elements => elements.mapM getString) = some channelNames := by
    decide +kernel
  obtain ⟨v, hparse, htype⟩ := Option.bind_eq_some_iff.mp htype
  rw [hparse, Option.bind_some] at hsymbol hchannels
  obtain ⟨_, htype, hstring⟩ := Option.bind_eq_some_iff.mp htype
  obtain ⟨_, hsymbol, hstring'⟩ := Option.bind_eq_some_iff.mp hsymbol
  obtain ⟨_, hchannels, harray⟩ := Option.bind_eq_some_iff.mp hchannels
  rw [string_of_getString hstring] at htype
  rw [string_of_getString hstring'] at hsymbol
  rw [strings_of_getArray harray] at hchannels
  exact ⟨v, hparse, .subscribe htype hsymbol (.inl hchannels)⟩

theorem readAsJson_fails : ¬ ReadAsJson documentedText := by
  intro h
  obtain ⟨v, hparse, hsays⟩ := documentedText_says
  have hutf8 : Utf8.IsUtf8 documentedText := by
    have hascii : Utf8.IsUtf8 (documentedText ++ []) ↔ Utf8.IsUtf8 [] :=
      Utf8.isUtf8_ascii_append (by decide +kernel) []
    rw [List.append_nil] at hascii
    exact hascii.mpr Utf8.isUtf8_nil
  obtain ⟨_, hrequest, -⟩ := h v _ ⟨hutf8, hparse⟩ hsays
  have hnone : requestOf documentedText = none := by decide +kernel
  rw [hnone] at hrequest
  cases hrequest

end OrderbookEngine.WebSocketServer
