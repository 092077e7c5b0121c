/-
What goes over the wire: the bytes a connection sends and those it writes
to the device, request by request.

`Wire` is a `Conn` beside what its calls have sent and written. A byte is
sent from memory (a code page, a 206 header) or with `sendfile` from the
block of the item, where it is known by its position in the item. Since
`request_finalize` sends a code page exactly when nothing has been sent and
the connection is not broken, what a step sends can be read off the states
around it (`Conn.emitted`).
-/
import OliveHc.Request

namespace OliveHc

/-- A byte that is sent: one of memory, or the one at a position of the item. -/
inductive Out
  | mem (b : UInt8)
  | disk (pos : Int)
deriving DecidableEq

/-- `n` bytes of the item from `start` on. -/
def diskBytes (start : Int) (n : Nat) : List Out := (List.range n).map fun (i : Nat) => .disk (start + i)

def httpMake200ResponseHeader (contentLength : Nat) : List UInt8 :=
  lit "HTTP/1.1 200 OK\r\nContent-Length: " ++ lit (toString contentLength) ++ lit "\r\n"

namespace Conn

/-- What `request_put_read_request_body_preread` assembles on its stack. None
if it runs over the array of segments or over its buffer, or takes a segment
that ends behind `buf_pos` (whose length is negative). -/
def image (c : Conn) : Option (List UInt8) :=
  let img := httpMake200ResponseHeader c.r.contentLength.toNat ++ c.r.putHeaders.flatMap (Slice.bytes c.buffer)
  if c.r.putHeaders.length ≤ 10 ∧ img.length ≤ reqBufSize ∧ ∀ s ∈ c.r.putHeaders, s.base + s.len ≤ c.bufPos then some img
  else none

/-- The `pwrite` of `request_write_disk`, of bytes that are written from the
offset of the item on. -/
def pwrite (c : Conn) (write : Bool) (bytes written : List UInt8) : List UInt8 :=
  if c.item.isSome && write then
    written.takeD c.processSize 0 ++ bytes ++ written.drop (c.processSize + bytes.length)
  else written

/-- The 206 header for the range as it has been resolved. -/
def headerBytes (item : ItemView) (c : Conn) : List Out :=
  (httpMake206ResponseHeader c.r.rangeStart c.r.rangeEnd (bodyLen item)).map .mem

/-- Where in the item a call that sends a part of it begins. -/
def sendStart (item : ItemView) (c : Conn) : Phase → Int
  | .disk206 => httpMake200ResponseHeaderLength (bodyLen item).toNat
  | .body206 => item.headersLen + c.r.rangeStart
  | _ => 0

/-- The code page that `request_finalize` sends when it comes to `c'`, `n`
bytes having been sent since `c`. -/
def pageOut (n : Nat) (c c' : Conn) : List Out :=
  if c'.phase = .finalizing ∧ c.outputSize + n = 0 ∧ c'.broken = false then
    ((httpCodePage c'.r.httpCode).getD []).map .mem
  else []

/-- What a step from `c` to `c'` sends. -/
def emitted (c c' : Conn) : ConnEvent → List Out
  | .header206 _ _ => match c.item with
    | some item =>
      if c'.phase = .disk206 then c'.headerBytes item else c.pageOut 0 c'
    | none => []
  | .sendfile (.bytes n) _ => match c.item with
    | some item => diskBytes (c.sendStart item c.phase + c.processSize) n ++ c.pageOut n c'
    | none => []
  | .retry | .finish _ => []
  | _ => c.pageOut 0 c'

end Conn

/-- A request that is finished: the connection as `request_do_finalize` finds
it, what was sent and what was written. -/
structure Exchange where
  conn : Conn
  sent : List Out
  written : List UInt8

/-- The connection is kept behind a request. -/
def Exchange.kept (x : Exchange) : Bool := x.conn.r.keepalive && !x.conn.broken

structure Wire where
  conn : Conn
  sent : List Out
  written : List UInt8
  finished : List Exchange

def wireStep (w : Wire) (ev : ConnEvent) : Option Wire :=
  (connStep w.conn ev).bind fun c' =>
    let sent := w.sent ++ w.conn.emitted c' ev
    match ev with
    | .preread write _ => w.conn.image.map fun img =>
      { w with conn := c', sent, written := w.conn.pwrite write img w.written }
    | .recvBody n write _ =>
      let bytes := w.conn.stream.take n
      -- More than was declared is not written.
      let written := if n > w.conn.itemLen - w.conn.processSize then w.written else w.conn.pwrite write bytes w.written
      some { w with conn := c', sent, written }
    | .finish _ =>
      some { conn := c', sent := [], written := [], finished := w.finished ++ [⟨w.conn, w.sent, w.written⟩] }
    | _ => some { w with conn := c', sent }

def wireSystem : System Wire ConnEvent where
  init w := connSystem.init w.conn ∧ w.sent = [] ∧ w.written = [] ∧ w.finished = []
  next w ev w' := wireStep w ev = some w'

theorem diskBytes_append (start : Int) (m n : Nat) :
    diskBytes start m ++ diskBytes (start + m) n = diskBytes start (m + n) := by
  simp only [diskBytes, List.range_add, List.map_append, List.map_map, List.append_cancel_left_eq]
  refine List.map_congr_left fun i _ => ?_
  simp only [Function.comp, Out.disk.injEq]
  omega

/-! ## Complete responses -/

/-- Exactly one whole response: a code page, the item (or its head), or the
206 header with the rest of the item's head and the range. -/
inductive Complete (c : Conn) : List Out → Prop
  | page {page : List UInt8} : httpCodePage c.r.httpCode = some page → Complete c (page.map .mem)
  | item {item : ItemView} : c.item = some item → c.r.httpCode = 200 →
      Complete c (diskBytes 0 (if c.r.method = .head then item.headersLen else item.length))
  | head206 {item : ItemView} {n : Nat} : c.item = some item → c.r.httpCode = 206 → c.r.method = .head →
      (n : Int) = c.sendLength item .disk206 →
      Complete c (c.headerBytes item ++ diskBytes (c.sendStart item .disk206) n)
  | range {item : ItemView} {n k : Nat} : c.item = some item → c.r.httpCode = 206 → c.r.method ≠ .head →
      (n : Int) = c.sendLength item .disk206 → (k : Int) = c.sendLength item .body206 →
      Complete c (c.headerBytes item ++ diskBytes (c.sendStart item .disk206) n ++
        diskBytes (c.sendStart item .body206) k)

/-- The answer to a request that is finished: a whole response, unless the
connection is broken or is closed after an error of the disk. -/
def Answered (c : Conn) (sent : List Out) : Prop :=
  c.broken = true ∨ (c.diskError = true ∧ c.r.keepalive = false) ∨ Complete c sent

/-- What has been sent in each phase. -/
def SendInv (c : Conn) (sent : List Out) : Phase → Prop
  | .readHeader | .parsed _ => sent = [] ∧ c.outputSize = 0 ∧ c.processSize = 0
  | .preread | .readBody => sent = [] ∧ c.outputSize = 0
  | .header206 => sent = [] ∧ c.outputSize = 0 ∧ c.r.httpCode = 206 ∧ c.processSize = 0
  | .response => c.r.httpCode = 200 ∧ sent = diskBytes 0 c.processSize ∧ c.outputSize = c.processSize
  | .disk206 => c.r.httpCode = 206 ∧ 0 < c.outputSize ∧ ∃ item, c.item = some item ∧
      sent = c.headerBytes item ++ diskBytes (c.sendStart item .disk206) c.processSize
  | .body206 => c.r.httpCode = 206 ∧ 0 < c.outputSize ∧ c.r.method ≠ .head ∧ ∃ (item : ItemView) (n : Nat),
      c.item = some item ∧ (n : Int) = c.sendLength item .disk206 ∧
      sent = c.headerBytes item ++ diskBytes (c.sendStart item .disk206) n ++
        diskBytes (c.sendStart item .body206) c.processSize
  | .finalizing => Answered c sent
  | .closed => True

/-- No `EIO` from a `sendfile` once a part of the response has been sent. -/
def NoLateEio (w : Wire) : ConnEvent → Prop
  | .sendfile .diskError _ => w.conn.r.keepalive = true → w.conn.outputSize = 0
  | _ => True

section Finalize

variable {c x c' : Conn} {send : Bool} {sent : List Out} {n : Nat}

/-- What `request_finalize` leaves as it is, and when it sends a page. -/
theorem requestFinalize_cases (hf : x.requestFinalize send = some c') : c'.phase = .finalizing ∧
    (c'.item = x.item ∧ c'.diskError = x.diskError ∧ c'.buffer = x.buffer ∧ c'.stream = x.stream) ∧ (∃ e, c'.r = { x.r with errorReason := e }) ∧
    (x.broken = true → c'.broken = true) ∧ (c'.broken = false → x.outputSize = 0 → ∃ page, httpCodePage x.r.httpCode = some page) := by
  unfold Conn.requestFinalize at hf
  split at hf
  · next hs =>
    simp only [Bool.and_eq_true, Bool.not_eq_true'] at hs
    obtain ⟨page, hp, rfl⟩ := Option.map_eq_some_iff.mp hf
    split
    · exact ⟨rfl, ⟨rfl, rfl, rfl, rfl⟩, ⟨_, rfl⟩, fun hb => hb, fun _ _ => ⟨page, hp⟩⟩
    · exact ⟨rfl, ⟨rfl, rfl, rfl, rfl⟩, ⟨_, rfl⟩, fun _ => rfl, fun _ _ => ⟨page, hp⟩⟩
  · next hs =>
    cases hf
    refine ⟨rfl, ⟨rfl, rfl, rfl, rfl⟩, ⟨_, rfl⟩, fun hb => hb, fun hb h0 => absurd ?_ hs⟩
    simp [show x.broken = false from hb, h0]

/-- A response is complete for what was asked and answered. -/
theorem Complete.congr (h : Complete x sent) (hi : c'.item = x.item) (hr : ∃ e, c'.r = { x.r with errorReason := e }) :
    Complete c' sent := by
  obtain ⟨e, hr⟩ := hr
  have hlen : ∀ item ph, c'.sendLength item ph = x.sendLength item ph := by
    intro item ph
    cases ph <;> simp [Conn.sendLength, hr]
  have hstart : ∀ item ph, c'.sendStart item ph = x.sendStart item ph := by
    intro item ph
    cases ph <;> simp [Conn.sendStart, hr]
  have hhead : ∀ item, c'.headerBytes item = x.headerBytes item := by
    intro item
    simp [Conn.headerBytes, hr]
  cases h with
  | page hp => exact .page (by rw [hr]; exact hp)
  | item h1 h2 =>
    have := Complete.item (c := c') (hi.trans h1) (by rw [hr]; exact h2)
    rw [hr] at this
    exact this
  | head206 h1 h2 h3 h4 =>
    have := Complete.head206 (c := c') (hi.trans h1) (by rw [hr]; exact h2) (by rw [hr]; exact h3) (by rw [hlen]; exact h4)
    rw [hhead, hstart] at this
    exact this
  | range h1 h2 h3 h4 h5 =>
    have := Complete.range (c := c') (hi.trans h1) (by rw [hr]; exact h2) (by rw [hr]; exact h3) (by rw [hlen]; exact h4)
      (by rw [hlen]; exact h5)
    rw [hhead, hstart, hstart] at this
    exact this

/-- **Finishing a request**: after an error of the disk, with nothing sent, or
behind a whole response. -/
theorem requestFinalize_answered (hf : x.requestFinalize send = some c') (hout : x.outputSize = c.outputSize + n)
    (h : (x.diskError = true ∧ x.r.keepalive = false) ∨ (c.outputSize + n = 0 ∧ sent = []) ∨
      (c.outputSize + n ≠ 0 ∧ Complete x sent)) :
    Answered c' (sent ++ c.pageOut n c') := by
  obtain ⟨hphase, ⟨hitem, hdisk, -⟩, hr, -, hpage⟩ := requestFinalize_cases hf
  by_cases hb : c'.broken = true
  · exact .inl hb
  have hb : c'.broken = false := by simpa using hb
  refine .inr ?_
  rcases h with h | ⟨h0, rfl⟩ | ⟨hne, hc⟩
  · obtain ⟨e, hr⟩ := hr
    exact .inl ⟨hdisk.trans h.1, by rw [hr]; exact h.2⟩
  · refine .inr ?_
    obtain ⟨page, hp⟩ := hpage hb (hout.trans h0)
    have hp' : httpCodePage c'.r.httpCode = some page := by
      obtain ⟨e, hr⟩ := hr
      rw [hr]
      exact hp
    rw [Conn.pageOut, if_pos ⟨hphase, h0, hb⟩, hp', List.nil_append]
    exact .page hp'
  · rw [Conn.pageOut, if_neg (fun hx => hne hx.2.1), List.append_nil]
    exact .inr (hc.congr hitem hr)

theorem pageOut_eq_nil (h : c'.phase ≠ .finalizing) : c.pageOut n c' = [] := if_neg fun hx => h hx.1

/-- A request that ends before anything was sent. -/
theorem requestFinalize_quiet (hf : x.requestFinalize send = some c') (hx : x.outputSize = c.outputSize)
    (h0 : c.outputSize = 0) : SendInv c' ([] ++ c.pageOut 0 c') c'.phase := by
  rw [(requestFinalize_cases hf).1]
  exact requestFinalize_answered hf hx (.inr (.inl ⟨h0, rfl⟩))

/-- A request that ends on a broken connection. -/
theorem requestFinalize_broken {out : List Out} (hf : x.requestFinalize send = some c') (hb : x.broken = true) :
    SendInv c' out c'.phase := by
  rw [(requestFinalize_cases hf).1]
  exact .inl ((requestFinalize_cases hf).2.2.2.1 hb)

end Finalize

/-! ## Every step -/

section Steps

variable {c c' x : Conn} {o : Outcome} {send write : Bool} {n : Nat}

/-- A dispatch sends nothing, and a failed one the page of `TooBusy`. -/
theorem dispatch_send {phase : Phase} (hf : x.dispatch o phase = some c') (hx : x.outputSize = c.outputSize)
    (h0 : c.outputSize = 0) (hne : phase ≠ .finalizing) (hphase : SendInv { x with worker := true, phase } [] phase) :
    SendInv c' ([] ++ c.pageOut 0 c') c'.phase := by
  unfold Conn.dispatch at hf
  split at hf
  · cases hf
    rw [pageOut_eq_nil hne]
    exact hphase
  · exact requestFinalize_quiet hf hx h0

theorem handleGet_send (h0 : c.outputSize = 0) (hp : c.processSize = 0) (hf : c.handleGet o = some c') :
    SendInv c' ([] ++ c.pageOut 0 c') c'.phase := by
  unfold Conn.handleGet at hf
  split at hf
  · exact requestFinalize_quiet hf rfl h0
  simp only at hf
  split at hf
  · exact dispatch_send hf rfl h0 (by simp) ⟨rfl, h0, rfl, hp⟩
  · refine dispatch_send hf rfl h0 (by simp) ⟨rfl, ?_, ?_⟩
    · show [] = diskBytes 0 c.processSize
      rw [hp]
      rfl
    · show c.outputSize = c.processSize
      rw [h0, hp]

theorem handlePut_send (h0 : c.outputSize = 0) (hf : c.handlePut o = some c') :
    SendInv c' ([] ++ c.pageOut 0 c') c'.phase := by
  unfold Conn.handlePut at hf
  split at hf
  · exact requestFinalize_quiet hf rfl h0
  · simp only at hf
    split at hf
    · exact requestFinalize_quiet hf rfl h0
    · exact dispatch_send hf rfl h0 (by simp) ⟨rfl, h0⟩
  · exact dispatch_send hf rfl h0 (by simp) ⟨rfl, h0⟩

theorem handleDelete_send (h0 : c.outputSize = 0) (hf : c.handleDelete o = some c') :
    SendInv c' ([] ++ c.pageOut 0 c') c'.phase := by
  unfold Conn.handleDelete at hf
  split at hf <;> exact requestFinalize_quiet hf rfl h0

theorem handle_send {rc : ParseRc} (h0 : c.outputSize = 0) (hp : c.processSize = 0) (hf : c.handle o rc = some c') :
    SendInv c' ([] ++ c.pageOut 0 c') c'.phase := by
  cases rc with
  | again =>
    simp only [Conn.handle] at hf
    split at hf
    · exact requestFinalize_quiet hf rfl h0
    · cases hf
      rw [pageOut_eq_nil (by simp)]
      exact ⟨rfl, h0, hp⟩
  | error => exact requestFinalize_quiet hf rfl h0
  | done =>
    simp only [Conn.handle] at hf
    cases hm : c.r.method with
    | get | head => rw [hm] at hf; exact handleGet_send h0 hp hf
    | put | post => rw [hm] at hf; exact handlePut_send h0 hf
    | purge | delete => rw [hm] at hf; exact handleDelete_send h0 hf
    | invalid => rw [hm] at hf; cases hf

/-- A write sends nothing. -/
theorem writeDisk_send (hx : x.outputSize = c.outputSize) (h0 : c.outputSize = 0)
    (hf : (if (x.writeDisk write n).2 then (x.writeDisk write n).1.bodyLoop send
      else (x.writeDisk write n).1.requestFinalize send) = some c') : SendInv c' ([] ++ c.pageOut 0 c') c'.phase := by
  have hw : (x.writeDisk write n).1.outputSize = x.outputSize := by
    unfold Conn.writeDisk
    split <;> rfl
  split at hf
  · unfold Conn.bodyLoop at hf
    split at hf
    · cases hf
      rw [pageOut_eq_nil (by simp)]
      exact ⟨rfl, hw.trans (hx.trans h0)⟩
    · exact requestFinalize_quiet hf (hw.trans hx) h0
  · exact requestFinalize_quiet hf (hw.trans hx) h0

theorem recvBody_send (h0 : c.outputSize = 0) (hf : c.recvBody n write send = some c') :
    SendInv c' ([] ++ c.pageOut 0 c') c'.phase := by
  simp only [Conn.recvBody] at hf
  split at hf
  · exact requestFinalize_quiet hf rfl h0
  · refine writeDisk_send ?_ h0 hf
    rfl

theorem header206_send {page : Bool} {item : ItemView} (hitem : c.item = some item) (h0 : c.outputSize = 0)
    (hcode : c.r.httpCode = 206) (hp : c.processSize = 0) (hf : c.header206 send page item = some c') :
    SendInv c' ([] ++ if c'.phase = .disk206 then c'.headerBytes item else c.pageOut 0 c') c'.phase := by
  have hnot : ∀ {x : Conn} {s : Bool}, x.requestFinalize s = some c' → c'.phase ≠ .disk206 := fun hx => by
    rw [(requestFinalize_cases hx).1]
    simp
  obtain ⟨start, stop, he⟩ := resolveRange_eq (Conn.bodyLen item) c.r
  simp only [Conn.header206, he] at hf
  split at hf
  · rw [if_neg (hnot hf)]
    exact requestFinalize_quiet hf rfl h0
  split at hf
  · cases hf
    refine ⟨hcode, ?_, item, hitem, ?_⟩
    · show 0 < _ + (Conn.httpMake206ResponseHeader _ _ _).length
      simp only [Conn.httpMake206ResponseHeader, List.length_append]
      have : 0 < (lit "HTTP/1.1 206 Partial Content\r\nContent-Length: ").length := by decide
      omega
    · show [] ++ _ = _ ++ diskBytes _ c.processSize
      rw [hp]
      simp [diskBytes]
  · rw [if_neg (hnot hf)]
    exact requestFinalize_broken hf rfl

/-- What a `sendfile` of `n` bytes leads to: more of the same, the body of a
range, or the end. -/
theorem writeResponse_bytes {page : Bool} {item : ItemView} (hf : c.writeResponse (.bytes n) page item = some c') :
    (c.sendLength item c.phase ≠ ((c.processSize + n : Nat) : Int) ∧
      c' = { c with outputSize := c.outputSize + n, processSize := c.processSize + n }) ∨
    (c.sendLength item c.phase = ((c.processSize + n : Nat) : Int) ∧
      if c.phase = .disk206 ∧ c.r.method ≠ .head then
        c' = { c with outputSize := c.outputSize + n, processSize := 0, phase := .body206 }
      else { c with outputSize := c.outputSize + n, processSize := c.processSize + n }.requestFinalize page = some c') := by
  by_cases hlen : c.sendLength item c.phase = ((c.processSize + n : Nat) : Int)
  · refine .inr ⟨hlen, ?_⟩
    simp only [Conn.writeResponse, Conn.sendFile, hlen, ne_eq, not_true_eq_false, if_false] at hf
    split
    · next hd =>
      rw [if_pos hd] at hf
      cases hf
      rfl
    · next hd =>
      rw [if_neg hd] at hf
      exact hf
  · refine .inl ⟨hlen, ?_⟩
    simp only [Conn.writeResponse, Conn.sendFile, ne_eq, hlen, not_false_eq_true, if_true] at hf
    cases hf
    rfl

/-- **`sendfile`** goes on where it stopped; at the end the response is whole. -/
theorem sendBytes_send {page : Bool} {item : ItemView} {sent : List Out} (hitem : c.item = some item)
    (hphase : c.phase = .response ∨ c.phase = .disk206 ∨ c.phase = .body206) (h : SendInv c sent c.phase)
    (hf : c.writeResponse (.bytes n) page item = some c') :
    SendInv c' (sent ++ (diskBytes (c.sendStart item c.phase + c.processSize) n ++ c.pageOut n c')) c'.phase := by
  rcases writeResponse_bytes hf with ⟨-, rfl⟩ | ⟨hlen, hend⟩
  · rw [pageOut_eq_nil (by rcases hphase with hp | hp | hp <;> simp [hp]), List.append_nil]
    rcases hphase with hp | hp | hp <;> simp only [hp] at h ⊢
    · obtain ⟨hcode, rfl, hout⟩ := h
      exact ⟨hcode, diskBytes_append .., by simp only [hout]⟩
    · obtain ⟨hcode, hout, it, hit, rfl⟩ := h
      cases hitem.symm.trans hit
      refine ⟨hcode, Nat.add_pos_left hout n, item, hitem, ?_⟩
      rw [List.append_assoc, diskBytes_append]
      rfl
    · obtain ⟨hcode, hout, hmeth, it, k, hit, hk, rfl⟩ := h
      cases hitem.symm.trans hit
      refine ⟨hcode, Nat.add_pos_left hout n, hmeth, item, k, hitem, hk, ?_⟩
      rw [List.append_assoc, diskBytes_append]
      rfl
  split at hend
  · next hd =>
    subst hend
    rw [hd.1] at h hlen ⊢
    obtain ⟨hcode, hout, it, hit, rfl⟩ := h
    cases hitem.symm.trans hit
    rw [pageOut_eq_nil (by simp), List.append_nil, List.append_assoc, diskBytes_append]
    exact ⟨hcode, Nat.add_pos_left hout n, hd.2, item, _, hitem, hlen.symm, (List.append_nil _).symm⟩
  · next hd =>
    rw [← List.append_assoc, (requestFinalize_cases hend).1]
    refine requestFinalize_answered hend rfl (.inr ?_)
    rcases hphase with hp | hp | hp <;> rw [hp] at h hlen ⊢
    · obtain ⟨hcode, rfl, hout⟩ := h
      by_cases h0 : c.outputSize + n = 0
      · refine .inl ⟨h0, ?_⟩
        rw [show c.processSize = 0 by omega, show n = 0 by omega]
        rfl
      · refine .inr ⟨h0, ?_⟩
        have hsize : (if c.r.method = .head then item.headersLen else item.length) = c.processSize + n := by
          simp only [Conn.sendLength] at hlen
          split at hlen
          · next hm => rw [if_pos hm]; omega
          · next hm => rw [if_neg hm]; omega
        have hc : ∀ x : Conn, x.item = some item → x.r = c.r → Complete x (diskBytes 0 (c.processSize + n)) := by
          intro x hi hr
          rw [← hsize, ← hr]
          exact .item hi (by rw [hr]; exact hcode)
        show Complete _ (diskBytes 0 c.processSize ++ diskBytes (0 + (c.processSize : Int)) n)
        rw [diskBytes_append]
        exact hc _ hitem rfl
    · obtain ⟨hcode, hout, it, hit, rfl⟩ := h
      cases hitem.symm.trans hit
      have hmeth : c.r.method = .head := by
        by_contra hne
        exact hd ⟨hp, hne⟩
      rw [List.append_assoc, diskBytes_append]
      exact .inr ⟨by omega, .head206 hitem hcode hmeth hlen.symm⟩
    · obtain ⟨hcode, hout, hmeth, it, k, hit, hk, rfl⟩ := h
      cases hitem.symm.trans hit
      rw [List.append_assoc, diskBytes_append]
      exact .inr ⟨by omega, .range hitem hcode hmeth hk hlen.symm⟩

/-- An `EIO` before anything was sent, or on a connection that is closed. -/
theorem diskError_send {page : Bool} {item : ItemView} {sent : List Out}
    (hphase : c.phase = .response ∨ c.phase = .disk206 ∨ c.phase = .body206) (h : SendInv c sent c.phase)
    (hok : c.r.keepalive = true → c.outputSize = 0) (hf : c.writeResponse .diskError page item = some c') :
    SendInv c' (sent ++ c.pageOut 0 c') c'.phase := by
  rw [(requestFinalize_cases hf).1]
  refine requestFinalize_answered hf rfl ?_
  by_cases hk : c.r.keepalive = true
  · have h0 := hok hk
    refine .inr (.inl ⟨h0, ?_⟩)
    rcases hphase with hp | hp | hp <;> rw [hp] at h
    · obtain ⟨-, hs, hout⟩ := h
      rw [hs, ← hout, h0]
      rfl
    · exact absurd h.2.1 (by omega)
    · exact absurd h.2.1 (by omega)
  · exact .inl ⟨rfl, show c.r.keepalive = false by simpa using hk⟩

theorem connStep_send {sent : List Out} {ev : ConnEvent} (h : SendInv c sent c.phase)
    (hok : ∀ page, ev = .sendfile .diskError page → c.r.keepalive = true → c.outputSize = 0) (hev : ∀ k, ev ≠ .finish k)
    (hs : connStep c ev = some c') : SendInv c' (sent ++ c.emitted c' ev) c'.phase := by
  cases ev with
  | recv env n =>
    obtain ⟨⟨hp, -⟩, rfl⟩ := Option.ite_none_right_eq_some.mp hs |>.imp id Option.some.inj
    rw [hp] at h
    obtain ⟨rfl, h0, hps⟩ := h
    simp only [Conn.emitted]
    rw [pageOut_eq_nil (by simp [Conn.recvHeader])]
    exact ⟨rfl, h0, hps⟩
  | recvFail reason =>
    obtain ⟨-, hf⟩ := Option.ite_none_right_eq_some.mp hs
    exact requestFinalize_broken hf rfl
  | handle o =>
    simp only [connStep] at hs
    split at hs
    · next rc hp =>
      rw [hp] at h
      obtain ⟨rfl, h0, hps⟩ := h
      exact handle_send h0 hps hs
    · cases hs
  | preread write send =>
    obtain ⟨hp, hf⟩ := Option.ite_none_right_eq_some.mp hs
    rw [hp] at h
    obtain ⟨rfl, h0⟩ := h
    exact writeDisk_send rfl h0 hf
  | recvBody n write send =>
    obtain ⟨⟨hp, -⟩, hf⟩ := Option.ite_none_right_eq_some.mp hs
    rw [hp] at h
    obtain ⟨rfl, h0⟩ := h
    exact recvBody_send h0 hf
  | header206 send page =>
    simp only [connStep] at hs
    split at hs
    · next item hp hitem =>
      rw [hp] at h
      obtain ⟨rfl, h0, hcode, hps⟩ := h
      simp only [Conn.emitted, hitem]
      exact header206_send hitem h0 hcode hps hs
    · cases hs
  | sendfile res page =>
    simp only [connStep] at hs
    split at hs
    · next item hitem =>
      obtain ⟨⟨hp, -⟩, hf⟩ := Option.ite_none_right_eq_some.mp hs
      cases res with
      | bytes n =>
        simp only [Conn.emitted, hitem]
        exact sendBytes_send hitem hp h hf
      | diskError => exact diskError_send hp h (hok page rfl) hf
      | socketError => exact requestFinalize_broken hf rfl
    · cases hs
  | interrupt reason =>
    obtain ⟨-, hf⟩ := Option.ite_none_right_eq_some.mp hs
    exact requestFinalize_broken hf rfl
  | retry =>
    obtain ⟨⟨hp, -⟩, hf⟩ := Option.ite_none_right_eq_some.mp hs
    cases hf
    simp only [hp]
    exact .inl rfl
  | finish k => exact absurd rfl (hev k)

end Steps

/-! ## Every run -/

/-- What has been sent fits the phase, and every connection that was kept had
sent a whole response. -/
structure WireInv (w : Wire) : Prop where
  send : SendInv w.conn w.sent w.conn.phase
  finished : ∀ x ∈ w.finished, x.kept → Complete x.conn x.sent

theorem requestDoFinalize_send (keepaliveTimeout : Nat) (c : Conn) :
    SendInv (c.requestDoFinalize keepaliveTimeout) [] (c.requestDoFinalize keepaliveTimeout).phase := by
  unfold Conn.requestDoFinalize
  dsimp only
  split
  · exact ⟨rfl, rfl, rfl⟩
  · exact trivial

/-- An answer on a connection that is kept is a whole response. -/
theorem Answered.complete {x : Exchange} (h : Answered x.conn x.sent) (hkept : x.kept) : Complete x.conn x.sent := by
  simp only [Exchange.kept, Bool.and_eq_true, Bool.not_eq_true'] at hkept
  rcases h with h | ⟨-, h⟩ | h
  · rw [h] at hkept
    cases hkept.2
  · rw [h] at hkept
    cases hkept.1
  · exact h

theorem wireStep_inv {w w' : Wire} {ev : ConnEvent} (h : WireInv w) (hok : NoLateEio w ev)
    (hs : wireStep w ev = some w') : WireInv w' := by
  obtain ⟨c', hc, hw⟩ := Option.bind_eq_some_iff.mp hs
  by_cases hev : ∃ k, ev = .finish k
  · obtain ⟨k, rfl⟩ := hev
    cases hw
    obtain ⟨hp, rfl⟩ := Option.ite_none_right_eq_some.mp hc |>.imp id Option.some.inj
    refine ⟨requestDoFinalize_send k w.conn, fun x hx hkept => ?_⟩
    rcases List.mem_append.mp hx with hx | hx
    · exact h.finished x hx hkept
    · cases List.mem_singleton.mp hx
      have hsend := h.send
      rw [hp] at hsend
      exact Answered.complete (x := ⟨w.conn, w.sent, w.written⟩) hsend hkept
  · have hsend := connStep_send h.send (fun page he => by subst he; exact hok) (fun k he => hev ⟨k, he⟩) hc
    -- Only a `finish` adds to what is finished.
    obtain ⟨hconn, hsent, hfin⟩ : w'.conn = c' ∧ w'.sent = w.sent ++ w.conn.emitted c' ev ∧ w'.finished = w.finished := by
      cases ev with
      | finish k => exact absurd ⟨k, rfl⟩ hev
      | preread write send =>
        obtain ⟨img, -, rfl⟩ := Option.map_eq_some_iff.mp hw
        exact ⟨rfl, rfl, rfl⟩
      | _ =>
        cases hw
        exact ⟨rfl, rfl, rfl⟩
    exact ⟨by rw [hconn, hsent]; exact hsend, by rw [hfin]; exact h.finished⟩

theorem wireInv_of_reach {w : Wire} (h : wireSystem.Reach NoLateEio w) : WireInv w := by
  refine h.invariant (fun w hw => ?_) fun w ev w' _ hw hok hs => wireStep_inv hw hok hs
  obtain ⟨⟨k, r, buffer, total, -, hc⟩, hsent, -, hfin⟩ := hw
  refine ⟨?_, fun x hx => ?_⟩
  · rw [hc, hsent]
    exact ⟨rfl, rfl, rfl⟩
  · rw [hfin] at hx
    cases hx

/-- **Response framing**: whatever the calls return, if no `sendfile` fails
with `EIO` inside a response of a connection to be kept, then exactly one
whole response was sent for every request after which the connection is kept. -/
theorem response_framing {w : Wire} (h : wireSystem.Reach NoLateEio w) (x : Exchange) (hx : x ∈ w.finished)
    (hkept : x.kept) : Complete x.conn x.sent :=
  (wireInv_of_reach h).finished x hx hkept

/-- A connection on which nothing has been sent. -/
def Wire.accepted (total : List UInt8) : Wire := ⟨.accepted total, [], [], []⟩

theorem wire_accepted_init (total : List UInt8) : wireSystem.init (.accepted total) :=
  ⟨accepted_init total, rfl, rfl, rfl⟩

/-- A hit that is sent in two pieces. -/
theorem response_framing_hit : ∃ w, wireSystem.Reach NoLateEio w ∧ ∃ x ∈ w.finished, x.kept = true ∧
    x.sent = diskBytes 0 9 ∧ Complete x.conn x.sent := by
  have hrun : (System.run wireStep (.accepted (lit "GET / HTTP/1.1\r\n\r\n"))
      [.recv ⟨0, 0, fun _ => -1⟩ 18, .handle .hit, .sendfile (.bytes 5) true, .sendfile (.bytes 4) true,
        .finish 60]).map (fun w => w.finished.map fun x => (x.kept, x.sent)) = some [(true, diskBytes 0 9)] := by
    decide +kernel
  obtain ⟨w, hw, hfin⟩ := Option.map_eq_some_iff.mp hrun
  obtain ⟨x, hx, hview⟩ := List.mem_map.mp (hfin ▸ List.mem_singleton.mpr rfl)
  obtain ⟨hkept, hsent⟩ := Prod.mk.inj hview
  have hreach : wireSystem.Reach NoLateEio w :=
    .run (f := wireStep) (fun _ _ _ h => h) (by simp [NoLateEio]) (.init (wire_accepted_init _)) hw
  exact ⟨w, hreach, x, hx, hkept, hsent, response_framing hreach x hx hkept⟩

/-- An `EIO` after 5 of 9 bytes: the connection is kept behind the cut response. -/
theorem response_framing_eio : ∃ w, wireSystem.Reachable w ∧ ∃ x ∈ w.finished, x.kept = true ∧
    x.sent = diskBytes 0 5 ∧ ¬Complete x.conn x.sent := by
  have hrun : (System.run wireStep (.accepted (lit "GET / HTTP/1.1\r\n\r\n"))
      [.recv ⟨0, 0, fun _ => -1⟩ 18, .handle .hit, .sendfile (.bytes 5) true, .sendfile .diskError true,
        .finish 60]).map (fun w => w.finished.map fun x => ((x.kept, x.sent), x.conn.item, x.conn.r.method, x.conn.r.httpCode)) =
      some [((true, diskBytes 0 5), some ⟨9, 4⟩, .get, 200)] := by
    decide +kernel
  obtain ⟨w, hw, hfin⟩ := Option.map_eq_some_iff.mp hrun
  obtain ⟨x, hx, hview⟩ := List.mem_map.mp (hfin ▸ List.mem_singleton.mpr rfl)
  simp only [Prod.mk.injEq] at hview
  obtain ⟨⟨hkept, hsent⟩, hitem, hmethod, hcode⟩ := hview
  refine ⟨w, .run (f := wireStep) (fun _ _ _ h => h) (.init (wire_accepted_init _)) hw, x, hx, hkept, hsent, ?_⟩
  rw [hsent]
  intro hc
  -- With code 200 the only whole response is the item.
  generalize hout : diskBytes 0 5 = out at hc
  cases hc with
  | page hp =>
    rw [hcode] at hp
    cases hp
  | item hi _ =>
    cases hitem.symm.trans hi
    rw [hmethod] at hout
    exact absurd hout (by decide)
  | head206 _ h2 | range _ h2 =>
    rw [hcode] at h2
    cases h2

end OliveHc
