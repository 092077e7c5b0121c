/-
The code page of a request that ends with nothing sent
(`request_finalize`, `http_code_page`).

`http_code` is 200 or 206 while a response is being sent, and these codes
have no page. A 206 begins with a header from memory; a 200 is sent from the
disk alone, and its first `sendfile` may fail, or have nothing to send.
-/
import OliveHc.Request

namespace OliveHc

namespace Conn

/-- The events that can happen to a connection. -/
def Enabled (c : Conn) : ConnEvent → Prop
  | .recv _ n => c.phase = .readHeader ∧ 0 < n ∧ n ≤ c.stream.length ∧ c.bufPos + n ≤ reqBufSize - 1
  | .recvFail _ => c.phase = .readHeader ∨ c.phase = .readBody
  | .handle _ => ∃ rc, c.phase = .parsed rc
  | .preread _ _ => c.phase = .preread
  | .recvBody n _ _ => c.phase = .readBody ∧ 0 < n ∧ n ≤ c.stream.length ∧ n ≤ recvBufSize
  | .header206 _ _ => c.phase = .header206
  | .sendfile res _ => (c.phase = .response ∨ c.phase = .disk206 ∨ c.phase = .body206) ∧
      ∀ item, c.item = some item → c.canSend res item
  | .interrupt _ => c.phase ∈ [.readHeader, .readBody, .response, .disk206, .body206]
  | .retry => c.phase = .finalizing ∧ c.worker
  | .finish _ => c.phase = .finalizing

end Conn

/-- The first `sendfile` of a 200 has something to send and does not fail
with `EIO`. -/
def FirstSent (c : Conn) : ConnEvent → Prop
  | .sendfile res _ => c.phase = .response → c.outputSize = 0 → match res with
    | .bytes _ => ∀ item, c.item = some item → c.sendLength item .response ≠ 0
    | .diskError => False
    | .socketError => True
  | _ => True

/-- What the phases know of the code and of what has been sent. -/
def PagePhase (c : Conn) : Phase → Prop
  | .readHeader => c.outputSize = 0 ∧ c.processSize = 0
  | .parsed rc => c.outputSize = 0 ∧ c.processSize = 0 ∧ (rc = .error → c.r.httpCode = 400) ∧
      (rc = .done → c.r.method ≠ .invalid)
  | .preread | .readBody => c.r.httpCode = 201 ∨ c.r.httpCode = 204
  | .response => c.processSize = c.outputSize ∧ c.item.isSome
  | .header206 => c.item.isSome
  | .disk206 | .body206 => c.outputSize ≠ 0 ∧ c.item.isSome
  | .finalizing | .closed => True

def PageInv (c : Conn) : Prop := PagePhase c c.phase

/-- The code has a page, or none is needed. -/
def Paged (c : Conn) : Prop := c.broken = false → c.outputSize = 0 → (httpCodePage c.r.httpCode).isSome

theorem requestFinalize_eq_none {send : Bool} {c : Conn} : c.requestFinalize send = none ↔ ¬Paged c := by
  unfold Conn.requestFinalize Paged
  cases c.broken <;> by_cases hs : c.outputSize = 0 <;> simp [hs]

/-- Where a call ends in `request_finalize`. -/
theorem requestFinalize_paged {send : Bool} {c : Conn} (h : Paged c) :
    ∃ c', c.requestFinalize send = some c' ∧ PageInv c' := by
  cases hf : c.requestFinalize send with
  | none => exact absurd h (requestFinalize_eq_none.mp hf)
  | some c' =>
    refine ⟨c', rfl, ?_⟩
    unfold Conn.requestFinalize at hf
    split at hf
    · obtain ⟨page, -, rfl⟩ := Option.map_eq_some_iff.mp hf
      split <;> trivial
    · cases hf
      trivial

theorem paged_of_broken {c : Conn} (h : c.broken = true) : Paged c := fun hb => by
  rw [h] at hb
  cases hb

theorem paged_of_code {c : Conn} (h : (httpCodePage c.r.httpCode).isSome) : Paged c := fun _ _ => h

theorem paged_of_sent {c : Conn} (h : c.outputSize ≠ 0) : Paged c := fun _ h0 => absurd h0 h

theorem dispatch_paged {o : Outcome} {phase : Phase} {c : Conn} (h : PagePhase { c with worker := true, phase } phase) :
    ∃ c', c.dispatch o phase = some c' ∧ PageInv c' := by
  unfold Conn.dispatch
  split
  · exact ⟨_, rfl, h⟩
  · exact requestFinalize_paged (paged_of_code rfl)

theorem handleGet_paged {o : Outcome} {c : Conn} (hout : c.outputSize = 0) (hproc : c.processSize = 0) :
    ∃ c', c.handleGet o = some c' ∧ PageInv c' := by
  unfold Conn.handleGet
  split
  · exact requestFinalize_paged (paged_of_code rfl)
  simp only
  split
  · exact dispatch_paged rfl
  · exact dispatch_paged ⟨hproc.trans hout.symm, rfl⟩

theorem handlePut_paged {o : Outcome} {c : Conn} : ∃ c', c.handlePut o = some c' ∧ PageInv c' := by
  unfold Conn.handlePut
  split
  · exact requestFinalize_paged (paged_of_code rfl)
  · simp only
    split
    · exact requestFinalize_paged (paged_of_code rfl)
    · exact dispatch_paged (.inr rfl)
  · exact dispatch_paged (.inl rfl)

theorem handle_paged {o : Outcome} {c : Conn} {rc : ParseRc} (h : PageInv c) (hp : c.phase = .parsed rc) :
    ∃ c', c.handle o rc = some c' ∧ PageInv c' := by
  obtain ⟨hout, hproc, herr, hdone⟩ : PagePhase c (.parsed rc) := hp ▸ h
  unfold Conn.handle
  cases rc with
  | again =>
    simp only
    split
    · exact requestFinalize_paged (paged_of_code rfl)
    · exact ⟨_, rfl, hout, hproc⟩
  | error => exact requestFinalize_paged (paged_of_code (by rw [herr rfl]; rfl))
  | done =>
    cases hm : c.r.method with
    | get | head => exact handleGet_paged hout hproc
    | put | post => exact handlePut_paged
    | purge | delete =>
      simp only [Conn.handleDelete]
      split <;> exact requestFinalize_paged (paged_of_code rfl)
    | invalid => exact absurd hm (hdone rfl)

/-- A write of a part of the body, and on to the loop or out of it. -/
theorem writeDisk_paged {write send : Bool} {n : Nat} {c : Conn} (h : c.r.httpCode = 201 ∨ c.r.httpCode = 204) :
    ∃ c', (if (c.writeDisk write n).2 then (c.writeDisk write n).1.bodyLoop send
      else (c.writeDisk write n).1.requestFinalize send) = some c' ∧ PageInv c' := by
  have hpage : ∀ c' : Conn, c'.r.httpCode = c.r.httpCode → Paged c' := fun c' hc =>
    paged_of_code (by rcases h with h | h <;> rw [hc, h] <;> rfl)
  unfold Conn.writeDisk
  split
  · simp only [if_true, Conn.bodyLoop]
    split
    · exact ⟨_, rfl, h⟩
    · exact requestFinalize_paged (hpage _ rfl)
  · exact requestFinalize_paged (paged_of_code rfl)

theorem recvBody_paged {n : Nat} {write send : Bool} {c : Conn} (h : PagePhase c .readBody) :
    ∃ c', c.recvBody n write send = some c' ∧ PageInv c' := by
  simp only [Conn.recvBody]
  split
  · exact requestFinalize_paged (paged_of_code rfl)
  · exact writeDisk_paged h

theorem header206_paged {send page : Bool} {item : ItemView} {c : Conn} (hitem : c.item = some item) :
    ∃ c', c.header206 send page item = some c' ∧ PageInv c' := by
  simp only [Conn.header206]
  split
  · exact requestFinalize_paged (paged_of_code rfl)
  split
  · refine ⟨_, rfl, ?_, by rw [hitem]; rfl⟩
    simp [Conn.httpMake206ResponseHeader, lit]
  · exact requestFinalize_paged (paged_of_broken rfl)

theorem writeResponse_paged {res : Sendfile} {page : Bool} {item : ItemView} {c : Conn} (h : PageInv c)
    (hp : c.phase = .response ∨ c.phase = .disk206 ∨ c.phase = .body206) (hitem : c.item = some item)
    (hok : FirstSent c (.sendfile res page)) : ∃ c', c.writeResponse res page item = some c' ∧ PageInv c' := by
  have hsome : c.item.isSome := by rw [hitem]; rfl
  have hsent : c.phase ≠ .response → c.outputSize ≠ 0 := by
    intro hne
    unfold PageInv at h
    rcases hp with hp | hp | hp
    · exact absurd hp hne
    · rw [hp] at h
      exact h.1
    · rw [hp] at h
      exact h.1
  have hproc : c.phase = .response → c.processSize = c.outputSize := by
    intro hp
    unfold PageInv at h
    rw [hp] at h
    exact h.1
  unfold Conn.writeResponse
  cases res with
  | diskError =>
    refine requestFinalize_paged (paged_of_sent fun h0 => ?_)
    by_cases hr : c.phase = .response
    · exact hok hr h0
    · exact hsent hr h0
  | socketError => exact requestFinalize_paged (paged_of_broken rfl)
  | bytes n =>
    -- Something has been sent once the end is reached.
    have hend : c.sendLength item c.phase = c.processSize + n → c.outputSize + n ≠ 0 := by
      intro hlen h0
      obtain ⟨ho, rfl⟩ : c.outputSize = 0 ∧ n = 0 := by omega
      by_cases hr : c.phase = .response
      · refine hok hr ho item hitem ?_
        rw [hr, hproc hr, ho] at hlen
        simpa using hlen
      · exact hsent hr ho
    simp only [Conn.sendFile]
    by_cases hlen : c.sendLength item c.phase = c.processSize + n
    · rw [if_neg (by simpa using hlen)]
      simp only
      split
      · exact ⟨_, rfl, hend hlen, hsome⟩
      · exact requestFinalize_paged (paged_of_sent (hend hlen))
    · rw [if_pos (by simpa using hlen)]
      refine ⟨_, rfl, ?_⟩
      unfold PageInv at h ⊢
      rcases hp with hp | hp | hp
      · simp only [hp] at h ⊢
        exact ⟨by show c.processSize + n = c.outputSize + n; rw [h.1], hsome⟩
      · simp only [hp] at h ⊢
        exact ⟨fun h0 => h.1 (by simp only at h0; omega), hsome⟩
      · simp only [hp] at h ⊢
        exact ⟨fun h0 => h.1 (by simp only at h0; omega), hsome⟩

/-- A parse that is accepted has found a method. -/
theorem httpRequestParse_method {env : ParseEnv} {buffer : List UInt8} {n : Nat} {r r' : Request}
    (h : httpRequestParse env buffer n r = (.done, r')) : r'.method ≠ .invalid := by
  rw [httpRequestParse_eq] at h
  generalize buffer.set n 0 = b at h
  cases hl : scanRequestLine b with
  | unknown =>
    rw [hl] at h
    cases h
  | cut m u p =>
    rw [hl, parseRest, parseNotComplete] at h
    split at h <;> cases h
  | notHttp m u =>
    rw [hl] at h
    cases h
  | line m u p =>
    rw [hl, parseRest] at h
    obtain ⟨p₁, r₁, q, hrun, -, hd⟩ := linesRun_of_done h
    obtain ⟨hmethod, -⟩ := hrun.records (rfl : (r.start m (some u)).segments = 0)
    have hm : r'.method = m := by
      rw [← show (r.start m (some u)).method = m from rfl, ← hmethod]
      unfold parseHeadDone at hd
      split_ifs at hd <;> cases hd <;> rfl
    have hmem : m ∈ httpMethods.map Prod.fst := by
      unfold scanRequestLine at hl
      split at hl
      · cases hl
      · next m' str hfind =>
        have hmem := List.mem_map_of_mem (f := Prod.fst) (List.mem_of_find?_eq_some hfind)
        rcases @scanUri_cases b m' str.length with ⟨u', q', hu⟩ | ⟨u', hu⟩ | ⟨u', q', hu⟩
        · rw [hu] at hl
          cases hl
        · rw [hu] at hl
          cases hl
        · rw [hu] at hl
          cases hl
          exact hmem
    intro hinv
    rw [← hm, hinv] at hmem
    exact absurd hmem (by decide)

theorem connStep_paged {c : Conn} {e : ConnEvent} (h : PageInv c) (hok : FirstSent c e) (he : c.Enabled e) :
    ∃ c', connStep c e = some c' ∧ PageInv c' := by
  cases e with
  | recv env n =>
    obtain ⟨hout, hproc⟩ : PagePhase c .readHeader := he.1 ▸ h
    refine ⟨_, if_pos he, hout, hproc, fun herr => ?_, fun hdone => ?_⟩
    · exact (httpRequestParse_refused (Prod.ext herr rfl)).2
    · exact httpRequestParse_method (Prod.ext hdone rfl)
  | recvFail reason =>
    simp only [Conn.Enabled] at he
    rw [connStep, if_pos he]
    exact requestFinalize_paged (paged_of_broken rfl)
  | handle o =>
    obtain ⟨rc, hp⟩ := he
    simp only [connStep, hp]
    exact handle_paged h hp
  | preread write send =>
    simp only [Conn.Enabled] at he
    have hcode : PagePhase c .preread := he ▸ h
    rw [connStep, if_pos he]
    exact writeDisk_paged hcode
  | recvBody n write send =>
    simp only [Conn.Enabled] at he
    have hcode : PagePhase c .readBody := he.1 ▸ h
    rw [connStep, if_pos he]
    exact recvBody_paged hcode
  | header206 send page =>
    have hp : c.phase = .header206 := he
    have hitem : PagePhase c .header206 := hp ▸ h
    obtain ⟨item, hitem⟩ := Option.isSome_iff_exists.mp hitem
    simp only [connStep, hp, hitem]
    exact header206_paged hitem
  | sendfile res page =>
    have hitem : c.item.isSome := by
      unfold PageInv at h
      rcases he.1 with hp | hp | hp
      all_goals
        rw [hp] at h
        exact h.2
    obtain ⟨item, hitem⟩ := Option.isSome_iff_exists.mp hitem
    simp only [connStep, hitem]
    rw [if_pos ⟨he.1, he.2 item hitem⟩]
    exact writeResponse_paged h he.1 hitem hok
  | interrupt reason =>
    simp only [Conn.Enabled] at he
    rw [connStep, if_pos he]
    exact requestFinalize_paged (paged_of_broken rfl)
  | retry =>
    refine ⟨_, if_pos he, ?_⟩
    unfold PageInv
    simp only [he.1]
    trivial
  | finish keepaliveTimeout =>
    refine ⟨_, if_pos he, ?_⟩
    simp only [PageInv, Conn.requestDoFinalize]
    split
    · exact ⟨rfl, rfl⟩
    · trivial

theorem connStep_enabled {c c' : Conn} {e : ConnEvent} (h : connStep c e = some c') : c.Enabled e := by
  cases e with
  | recv | recvFail | preread | recvBody | interrupt | retry | finish => exact (Option.ite_none_right_eq_some.mp h).1
  | handle o =>
    simp only [connStep] at h
    split at h
    · next rc hp => exact ⟨rc, hp⟩
    · cases h
  | header206 send page =>
    simp only [connStep] at h
    split at h
    · next hp _ => exact hp
    · cases h
  | sendfile res page =>
    simp only [connStep] at h
    split at h
    · next item hitem =>
      obtain ⟨⟨hp, hcan⟩, -⟩ := Option.ite_none_right_eq_some.mp h
      refine ⟨hp, fun item' hitem' => ?_⟩
      obtain rfl : item = item' := Option.some.inj (hitem.symm.trans hitem')
      exact hcan
    · cases h

/-- **The code page is found.** In a run in which the first `sendfile` of a
200 sends something or finds the connection broken, every event that can
happen is handled: `http_code_page` is called for a code that has a page. -/
theorem code_page_found {c : Conn} (h : connSystem.Reach FirstSent c) {e : ConnEvent} (hok : FirstSent c e)
    (he : c.Enabled e) : ∃ c', connStep c e = some c' := by
  have hinv : PageInv c := by
    refine h.invariant (fun c hc => ?_) fun c e c' _ hc hok hs => ?_
    · obtain ⟨_, _, _, _, _, rfl⟩ := hc
      exact ⟨rfl, rfl⟩
    · obtain ⟨c₁, hc₁, hinv⟩ := connStep_paged hc hok (connStep_enabled hs)
      obtain rfl : c₁ = c' := Option.some.inj (hc₁.symm.trans hs)
      exact hinv
  obtain ⟨c', hc', -⟩ := connStep_paged hinv hok he
  exact ⟨c', hc'⟩

/-- A hit whose first `sendfile` takes a part of the item. -/
theorem code_page_found_part : ∃ c c', connSystem.Reach FirstSent c ∧ c.outputSize = 0 ∧ c.r.httpCode = 200 ∧
    connStep c (.sendfile (.bytes 5) true) = some c' := by
  have hrun : (System.run connStep (.accepted (lit "GET / HTTP/1.1\r\n\r\n"))
      [.recv ⟨0, 0, fun _ => -1⟩ 18, .handle .hit]).map
        (fun c => ((c.phase, c.outputSize, c.processSize), c.r.httpCode, c.r.method, c.item)) =
      some ((.response, 0, 0), 200, .get, some ⟨9, 4⟩) := by
    decide +kernel
  obtain ⟨c, hc, hview⟩ := Option.map_eq_some_iff.mp hrun
  simp only [Prod.mk.injEq] at hview
  obtain ⟨⟨hp, hout, hproc⟩, hcode, hmethod, hitem⟩ := hview
  have hreach : connSystem.Reach FirstSent c :=
    .run (f := connStep) (fun _ _ _ h => h) (by simp [FirstSent]) (.init (accepted_init _)) hc
  have hok : FirstSent c (.sendfile (.bytes 5) true) := fun _ _ item hi => by
    cases hitem.symm.trans hi
    simp [Conn.sendLength, hmethod]
  have he : c.Enabled (.sendfile (.bytes 5) true) := ⟨.inl hp, fun item hi => by
    cases hitem.symm.trans hi
    rw [Conn.canSend, hp, Conn.sendLength, hmethod, hproc]
    decide⟩
  obtain ⟨c', hc'⟩ := code_page_found hreach hok he
  exact ⟨c, c', hreach, hout, hcode, hc'⟩

/-- The first `sendfile` of a hit fails with `EIO`: nothing has been sent, the
connection is not broken, and code 200 has no page. -/
theorem code_page_found_eio : ∃ c, connSystem.Reachable c ∧ c.Enabled (.sendfile .diskError true) ∧ c.broken = false ∧
    c.outputSize = 0 ∧ httpCodePage c.r.httpCode = none ∧ connStep c (.sendfile .diskError true) = none := by
  have hrun : (System.run connStep (.accepted (lit "GET / HTTP/1.1\r\n\r\n"))
      [.recv ⟨0, 0, fun _ => -1⟩ 18, .handle .hit]).map
        (fun c => ((c.phase, c.outputSize, c.broken), c.r.httpCode, (connStep c (.sendfile .diskError true)).isNone)) =
      some ((.response, 0, false), 200, true) := by
    decide +kernel
  obtain ⟨c, hc, hview⟩ := Option.map_eq_some_iff.mp hrun
  simp only [Prod.mk.injEq, Option.isNone_iff_eq_none] at hview
  obtain ⟨⟨hp, hout, hbroken⟩, hcode, hnone⟩ := hview
  exact ⟨c, .run (f := connStep) (fun _ _ _ h => h) (.init (accepted_init _)) hc, ⟨.inl hp, fun _ _ => rfl⟩, hbroken, hout,
    by rw [hcode]; rfl, hnone⟩

end OliveHc
