/-
Whether the parser's answer depends on how `recv` splits a request.

`http_request_parse` starts over at every chunk, so two things are compared
here. First, a parse of the first `c` bytes with a parse of all of them
(`CutOk` says where the cut must not fall); then a parse from the fields an
earlier one left behind with a parse from the reset request
(`parse_from_leftover`: handlers only ever set a field to what their line
says, so running them again over the same lines changes nothing).
-/
import OliveHc.Http.Loop

namespace OliveHc

/-! ## The request line -/

/-- What the parser finds in the request line: no method it knows, a line
that is not complete (with the uri if it has one), no `HTTP/`, or the
position of the first header line. -/
inductive RequestLine
  | unknown
  | cut (method : HttpMethod) (uri : Option Slice) (p : Nat)
  | notHttp (method : HttpMethod) (uri : Slice)
  | line (method : HttpMethod) (uri : Slice) (p : Nat)

/-- The line behind the method. -/
def scanUri (b : List UInt8) (method : HttpMethod) (p : Nat) : RequestLine :=
  match strchr 32 (b.drop (skipSpaces b p)) with
  | none => .cut method none (skipSpaces b p)
  | some i =>
    let uri : Slice := ⟨skipSpaces b p, i⟩
    let p := skipSpaces b (skipSpaces b p + i + 1)
    if strncasecmp (lit "HTTP/") (b.drop p) then
      match strchr 13 (b.drop (p + 5)) with
      | none => .cut method (some uri) p
      | some i => .line method uri (p + 5 + i + 2)
    else .notHttp method uri

def scanRequestLine (b : List UInt8) : RequestLine :=
  match httpMethods.find? fun m => strncmp m.2 b with
  | none => .unknown
  | some (method, str) => scanUri b method str.length

/-- The request as the parser has it behind the request line. -/
def Request.start (r : Request) (method : HttpMethod) (uri : Option Slice) : Request :=
  { r with method, uri, putHeaders := [], putHeaderLength := 0 }

/-- The rest of the parse. -/
def parseRest (env : ParseEnv) (b : List UInt8) (bufPos : Nat) (r : Request) : RequestLine → ParseRc × Request
  | .unknown => parseFail { r with putHeaders := [], putHeaderLength := 0, errorReason := some "UnknownMethod" }
  | .cut method uri p => parseNotComplete b p (r.start method (uri.or r.uri))
  | .notHttp method uri => parseFail { r.start method (some uri) with errorReason := some "NotHTTP" }
  | .line method uri p => parseHeadersFrom env b bufPos p (r.start method (some uri))

theorem httpRequestParse_eq {env : ParseEnv} {buffer : List UInt8} {bufPos : Nat} {r : Request} :
    httpRequestParse env buffer bufPos r =
      parseRest env (buffer.set bufPos 0) bufPos r (scanRequestLine (buffer.set bufPos 0)) := by
  simp only [httpRequestParse, scanRequestLine]
  generalize buffer.set bufPos 0 = b
  cases hm : httpMethods.find? fun m => strncmp m.2 b with
  | none => rfl
  | some ms =>
    obtain ⟨method, str⟩ := ms
    simp only [scanUri]
    cases hu : strchr 32 (b.drop (skipSpaces b str.length)) with
    | none => rfl
    | some i =>
      simp only
      generalize hq : skipSpaces b (skipSpaces b str.length + i + 1) = q
      by_cases hv : strncasecmp (lit "HTTP/") (b.drop q)
      · rw [if_pos hv, if_neg (by simp [hv])]
        cases hc : strchr 13 (b.drop (q + 5)) with
        | none => rfl
        | some k =>
          simp only [parseRest, parseHeadersFrom]
          exact parseHeaders_fuel (by omega) (by omega)
      · rw [if_neg hv, if_pos (by simp [hv])]
        rfl

theorem find?_and {α : Type} {f g : α → Bool} {l : List α} (h : ∀ x ∈ l, ∀ y ∈ l, f x → f y → x = y) :
    (l.find? fun x => f x && g x) = (l.find? f).filter g := by
  induction l with
  | nil => rfl
  | cons a l ih =>
    have ih := ih fun x hx y hy => h x (by simp [hx]) y (by simp [hy])
    simp only [List.find?_cons]
    cases hf : f a with
    | false => simpa using ih
    | true =>
      cases hg : g a with
      | true => simp [Option.filter_some, hg]
      | false =>
        -- No other entry fits, so nothing else is found.
        simp only [Bool.and_false, Option.filter_some, hg, Bool.false_eq_true, if_false]
        rw [List.find?_eq_none]
        intro x hx hfx
        have hxf := (Bool.and_eq_true_iff.mp hfx)
        have := h a (by simp) x (by simp [hx]) hf hxf.1
        rw [← this, hg] at hxf
        exact absurd hxf.2 (by simp)

theorem httpMethods_apart : ∀ m ∈ httpMethods, ∀ m' ∈ httpMethods, m.2.isPrefixOf m'.2 → m = m' := by decide

theorem findMethod_take {s : List UInt8} {c : Nat} :
    (httpMethods.find? fun m => strncmp m.2 (s.take c)) =
      (httpMethods.find? fun m => strncmp m.2 s).filter fun m => m.2.length ≤ c := by
  simp only [strncmp_take]
  refine find?_and fun m hm m' hm' h h' => ?_
  have hp := List.isPrefixOf_iff_prefix.mp h
  have hp' := List.isPrefixOf_iff_prefix.mp h'
  rcases Nat.le_total m.2.length m'.2.length with hle | hle
  · exact httpMethods_apart m hm m' hm' (List.isPrefixOf_iff_prefix.mpr (List.prefix_of_prefix_length_le hp hp' hle))
  · exact (httpMethods_apart m' hm' m hm
      (List.isPrefixOf_iff_prefix.mpr (List.prefix_of_prefix_length_le hp' hp hle))).symm

/-- The cut is behind the space that ends the uri, and in front of the end
of `HTTP/`. -/
def VersionCut (s : List UInt8) (c p : Nat) : Prop :=
  ∃ i, strchr 32 (s.drop (skipSpaces s p)) = some i ∧ skipSpaces s p + i < c ∧
    c < skipSpaces s (skipSpaces s p + i + 1) + 5

section

variable {s : List UInt8} {c p : Nat} {m : HttpMethod}

theorem scanUri_take_tokenCut (h : TokenCut 32 s c p) :
    scanUri (s.take c) m p = .cut m none (skipSpaces s p) ∧
      strstr crlf2 ((s.take c).drop (skipSpaces s p)) = true := by
  have hlt := h.lt
  obtain ⟨i, hi, hle, hs⟩ := h
  refine ⟨?_, hs⟩
  rw [scanUri, skipSpaces_take, if_pos hlt, List.drop_take,
    strchr_take_none (by intro j hj; rw [hi] at hj; cases hj; omega)]

theorem scanUri_take_versionCut (h : VersionCut s c p) : ∃ u, scanUri (s.take c) m p = .notHttp m u := by
  obtain ⟨i, hi, hlt, hc⟩ := h
  refine ⟨⟨skipSpaces s p, i⟩, ?_⟩
  rw [scanUri, skipSpaces_take, if_pos (by omega), List.drop_take, strchr_take_some hi (by omega)]
  simp only
  rw [if_neg]
  rw [List.drop_take, strncasecmp_take, skipSpaces_take, show (lit "HTTP/").length = 5 by decide]
  simp only [Bool.and_eq_true, decide_eq_true_eq, not_and]
  intro _
  split <;> omega

/-- `HTTP/` has no end of line in it. -/
theorem strchr_version {l : List UInt8} (hv : strncasecmp (lit "HTTP/") l) (h : strchr 13 (l.drop 5) = none) :
    strchr 13 l = none := by
  rw [← List.take_append_drop 5 l]
  refine strchr_append_none (fun hm => ?_) h
  obtain ⟨rest, hr⟩ := List.isPrefixOf_iff_prefix.mp hv
  have h13 : toLower 13 ∈ (l.take 5).map toLower := List.mem_map_of_mem hm
  rw [List.map_take, ← hr, List.take_left' (show ((lit "HTTP/").map toLower).length = 5 by decide)] at h13
  exact absurd h13 (by decide)

theorem scanUri_line {u : Slice} {q : Nat} (h : scanUri s m p = .line m u q) :
    ∃ i, strchr 32 (s.drop (skipSpaces s p)) = some i ∧ skipSpaces s p + i < q := by
  unfold scanUri at h
  split at h
  · cases h
  next i hi =>
  refine ⟨i, hi, ?_⟩
  simp only at h
  split at h
  · split at h <;> cases h
    have := @le_skipSpaces s (skipSpaces s p + i + 1)
    omega
  · cases h

/-- The request line of a cut buffer. -/
theorem scanUri_take (hv : ¬VersionCut s c p) :
    (∃ u q, scanUri (s.take c) m p = .line m u q ∧ scanUri s m p = .line m u q) ∨
    (∃ u, scanUri (s.take c) m p = .notHttp m u ∧ scanUri s m p = .notHttp m u) ∨
    ∃ u q, scanUri (s.take c) m p = .cut m u q ∧
      (strstr crlf2 ((s.take c).drop q) = true →
        TokenCut 32 s c p ∨ ∃ q', scanUri s m p = .cut m u q' ∧ strstr crlf2 (s.drop q') = true) ∧
      (∀ u' q', scanUri s m p = .cut m u' q' → u'.or u = u') ∧ ∀ u' q', scanUri s m p = .line m u' q' → c ≤ q' := by
  by_cases hlt : skipSpaces s p < c
  swap
  · refine .inr (.inr ⟨none, max p c, ?_, fun h => ?_, fun u' _ _ => Option.or_none, fun u' q' h => ?_⟩)
    · rw [scanUri, skipSpaces_take, if_neg hlt, drop_take_eq_nil (by omega)]
      rfl
    · rw [drop_take_eq_nil (by omega)] at h; cases h
    · obtain ⟨i, -, hi⟩ := scanUri_line h
      omega
  have hls : skipSpaces (s.take c) p = skipSpaces s p := by rw [skipSpaces_take, if_pos hlt]
  have hend : ∀ i, strchr 32 (s.drop (skipSpaces s p)) = some i → c ≤ skipSpaces s p + i →
      ∀ u' q', scanUri s m p = .line m u' q' → c ≤ q' := by
    intro i hi hc u' q' h
    obtain ⟨j, hj, hq⟩ := scanUri_line h
    rw [hi] at hj
    cases hj
    omega
  simp only [scanUri, hls] at hend ⊢
  cases hu : strchr 32 (s.drop (skipSpaces s p)) with
  | none =>
    rw [List.drop_take, strchr_take, hu]
    refine .inr (.inr ⟨none, skipSpaces s p, rfl, fun h => .inr ⟨_, rfl, ?_⟩, fun u' _ _ => Option.or_none,
      fun u' q' h => by cases h⟩)
    rw [List.drop_take] at h
    exact strstr_of_take h (by decide)
  | some i =>
    by_cases hi : skipSpaces s p + i < c
    swap
    · rw [List.drop_take, strchr_take_none (by intro j hj; rw [hu] at hj; cases hj; omega)]
      rw [hu] at hend
      exact .inr (.inr ⟨none, skipSpaces s p, rfl, fun h => .inl ⟨i, hu, by omega, h⟩, fun u' _ _ => Option.or_none,
        hend i rfl (by omega)⟩)
    have hvc : skipSpaces s (skipSpaces s p + i + 1) + 5 ≤ c := Nat.le_of_not_lt fun h => hv ⟨i, hu, hi, h⟩
    rw [List.drop_take, strchr_take_some hu (by omega)]
    have hls' : skipSpaces (s.take c) (skipSpaces s p + i + 1) = skipSpaces s (skipSpaces s p + i + 1) := by
      rw [skipSpaces_take, if_pos (by omega)]
    simp only [hls']
    generalize skipSpaces s (skipSpaces s p + i + 1) = q at hvc ⊢
    have hcmp : strncasecmp (lit "HTTP/") ((s.take c).drop q) = strncasecmp (lit "HTTP/") (s.drop q) := by
      rw [List.drop_take, strncasecmp_take, show (lit "HTTP/").length = 5 by decide]
      simp only [Bool.and_eq_left_iff_imp, decide_eq_true_eq]
      omega
    rw [hcmp]
    split
    swap
    · exact .inr (.inl ⟨_, rfl, rfl⟩)
    next hhttp =>
    cases hcr : strchr 13 (s.drop (q + 5)) with
    | none =>
      rw [List.drop_take, strchr_take, hcr]
      refine .inr (.inr ⟨_, q, rfl, fun h => .inr ⟨_, rfl, ?_⟩, fun u' q' h => ?_, fun u' q' h => by cases h⟩)
      · rw [List.drop_take] at h
        exact strstr_of_take h (by decide)
      · cases h; rfl
    | some k =>
      by_cases hk : q + 5 + k < c
      · rw [List.drop_take, strchr_take_some hcr (by omega)]
        exact .inl ⟨_, _, rfl, rfl⟩
      · have hnone : strchr 13 ((s.take c).drop (q + 5)) = none := by
          rw [List.drop_take]
          exact strchr_take_none (by intro j hj; rw [hcr] at hj; cases hj; omega)
        rw [hnone]
        refine .inr (.inr ⟨_, q, rfl, fun h => ?_, fun u' q' h => ?_, fun u' q' h => ?_⟩)
        rotate_left
        · cases h
        · cases h; omega
        have h13 := strchr_version (hcmp.trans hhttp) (by rw [List.drop_drop]; exact hnone)
        rw [show crlf2 = 13 :: [10, 13, 10] by decide, strstr_eq_false_of_strchr h13] at h
        cases h

end

/-! ## Cuts and chunks -/

/-- Where a cut of the bytes `s` behind the first `c` does no harm, for a
parse that starts from `r`. -/
structure CutOk (env : ParseEnv) (s : List UInt8) (r : Request) (c : Nat) : Prop where
  /-- Not inside the method. -/
  method : ∀ m, (httpMethods.find? fun m => strncmp m.2 s) = some m → m.2.length ≤ c
  /-- Not inside a uri that has an end of head in it. -/
  uri : ∀ m, (httpMethods.find? fun m => strncmp m.2 s) = some m → ¬TokenCut 32 s c m.2.length
  /-- Not between the uri and the end of `HTTP/`. -/
  version : ∀ m, (httpMethods.find? fun m => strncmp m.2 s) = some m → ¬VersionCut s c m.2.length
  lines : ∀ m u p, scanRequestLine s = .line m u p → ∀ p' r', LinesRun env s p (r.start m (some u)) p' r' →
    LineOk env s c p' r'

theorem scanUri_cases {s : List UInt8} {m : HttpMethod} {p : Nat} : (∃ u q, scanUri s m p = .cut m u q) ∨
    (∃ u, scanUri s m p = .notHttp m u) ∨ ∃ u q, scanUri s m p = .line m u q := by
  unfold scanUri
  split
  · exact .inl ⟨_, _, rfl⟩
  simp only
  split
  · split
    · exact .inl ⟨_, _, rfl⟩
    · exact .inr (.inr ⟨_, _, rfl⟩)
  · exact .inr (.inl ⟨_, rfl⟩)

/-- `http_request_parse` when all of `b` has been received. -/
def parseAll (env : ParseEnv) (b : List UInt8) (r : Request) : ParseRc × Request := httpRequestParse env b b.length r

section

variable {env : ParseEnv} {s : List UInt8} {c : Nat} {r : Request}

theorem parseAll_eq : parseAll env s r = parseRest env s s.length r (scanRequestLine s) := by
  rw [parseAll, httpRequestParse_eq, List.set_eq_of_length_le (Nat.le_refl _)]

theorem scanRequestLine_some {m : HttpMethod × List UInt8} (h : (httpMethods.find? fun m => strncmp m.2 s) = some m) :
    scanRequestLine s = scanUri s m.1 m.2.length := by
  simp only [scanRequestLine, h]

/-- The cut buffer has the method, or is refused for it. -/
theorem scanRequestLine_take {m : HttpMethod × List UInt8}
    (h : (httpMethods.find? fun m => strncmp m.2 s) = some m) :
    scanRequestLine (s.take c) = if m.2.length ≤ c then scanUri (s.take c) m.1 m.2.length else .unknown := by
  simp only [scanRequestLine, findMethod_take, h, Option.filter_some]
  by_cases hc : m.2.length ≤ c <;> simp [hc]

theorem scanRequestLine_take_unknown (h : (httpMethods.find? fun m => strncmp m.2 s) = none) :
    scanRequestLine (s.take c) = .unknown ∧ scanRequestLine s = .unknown := by
  simp [scanRequestLine, findMethod_take, h]

/-- **A prefix**, cut where it does no harm, is incomplete or has the answer
of the whole. -/
theorem parseAll_take (hcs : c ≤ s.length) (hok : CutOk env s r c) :
    (parseAll env (s.take c) r).1 = .again ∨ SameParse (parseAll env (s.take c) r) (parseAll env s r) := by
  rw [parseAll_eq, parseAll_eq]
  cases hm : httpMethods.find? fun m => strncmp m.2 s with
  | none =>
    obtain ⟨ht, hs⟩ := scanRequestLine_take_unknown (c := c) hm
    rw [ht, hs]
    exact .inr ⟨rfl, rfl⟩
  | some m =>
    rw [scanRequestLine_take hm, if_pos (hok.method m hm), scanRequestLine_some hm]
    rcases scanUri_take (m := m.1) (hok.version m hm) with ⟨u, q, ht, hs⟩ | ⟨u, ht, hs⟩ | ⟨u, q, ht, hstr, -, -⟩
    · rw [ht, hs, parseRest, parseRest, List.length_take, Nat.min_eq_left hcs]
      exact parseHeadersFrom_take hcs (hok.lines _ _ _ ((scanRequestLine_some hm).trans hs))
    · rw [ht, hs]
      exact .inr ⟨rfl, rfl⟩
    · rw [ht, parseRest, parseNotComplete]
      split
      · next h =>
        rcases hstr h with hcut | ⟨q', hs, hs'⟩
        · exact absurd hcut (hok.uri m hm)
        · rw [hs, parseRest, parseNotComplete, if_pos hs']
          exact .inr ⟨rfl, rfl⟩
      · exact .inl rfl

/-- **Leftovers do not matter.** A parse from what an incomplete parse of a
prefix has left is a parse from the beginning. -/
theorem parse_from_leftover {rt : Request} (hcs : c ≤ s.length) (h0 : r.expire = 0)
    (h : parseAll env (s.take c) r = (.again, rt)) : parseAll env s rt = parseAll env s r := by
  rw [parseAll_eq] at h
  rw [parseAll_eq, parseAll_eq]
  cases hm : httpMethods.find? fun m => strncmp m.2 s with
  | none =>
    obtain ⟨ht, -⟩ := scanRequestLine_take_unknown (c := c) hm
    rw [ht] at h; cases h
  | some m =>
    rw [scanRequestLine_take hm] at h
    split at h
    swap
    · cases h
    rw [scanRequestLine_some hm]
    have hv : ¬VersionCut s c m.2.length := by
      intro hv
      obtain ⟨u, hu⟩ := scanUri_take_versionCut (m := m.1) hv
      rw [hu] at h; cases h
    rcases scanUri_take (m := m.1) hv with ⟨u, q, ht, hs⟩ | ⟨u, ht, hs⟩ | ⟨u, q, ht, -, hor, -⟩
    · rw [ht, parseRest, List.length_take, Nat.min_eq_left hcs] at h
      obtain ⟨p', hrun⟩ := linesRun_of_again h
      rw [hs, parseRest, parseRest, hrun.of_take.parse]
      exact (hrun.of_take.again h0).parse
    · rw [ht] at h; cases h
    · rw [ht, parseRest, parseNotComplete] at h
      split at h
      · cases h
      cases h
      rcases scanUri_cases (s := s) (m := m.1) (p := m.2.length) with ⟨u', q', hs⟩ | ⟨u', hs⟩ | ⟨u', q', hs⟩
      · rw [hs, parseRest, parseRest]
        have : u'.or (u.or r.uri) = u'.or r.uri := by rw [← Option.or_assoc, hor u' q' hs]
        simp only [Request.start, this]
      · rw [hs]; rfl
      · rw [hs]; rfl

/-- A prefix of a sequence that is not refused is refused only for its cut. -/
theorem cutOk_of_not_error (hcs : c ≤ s.length) (ht : (parseAll env (s.take c) r).1 ≠ .error)
    (hs : (parseAll env s r).1 ≠ .error) : CutOk env s r c := by
  rw [parseAll_eq] at ht hs
  have hmc : ∀ m, (httpMethods.find? fun m => strncmp m.2 s) = some m → m.2.length ≤ c := by
    intro m hm
    by_contra hlt
    rw [scanRequestLine_take hm, if_neg hlt] at ht
    exact ht rfl
  refine ⟨hmc, fun m hm hcut => ?_, fun m hm hcut => ?_, fun m u p hline p' r' hrun => ?_⟩
  · rw [scanRequestLine_take hm, if_pos (hmc m hm)] at ht
    obtain ⟨hu, hstr⟩ := scanUri_take_tokenCut (m := m.1) hcut
    rw [hu, parseRest, parseNotComplete, if_pos hstr] at ht
    exact ht rfl
  · rw [scanRequestLine_take hm, if_pos (hmc m hm)] at ht
    obtain ⟨u, hu⟩ := scanUri_take_versionCut (m := m.1) hcut
    rw [hu] at ht
    exact ht rfl
  · cases hm : httpMethods.find? fun m => strncmp m.2 s with
    | none => rw [(scanRequestLine_take_unknown (c := c) hm).2] at hline; cases hline
    | some ms =>
      rw [scanRequestLine_take hm, if_pos (hmc ms hm)] at ht
      rw [scanRequestLine_some hm] at hline hs
      have hv : ¬VersionCut s c ms.2.length := by
        intro hv
        obtain ⟨u, hu⟩ := scanUri_take_versionCut (m := ms.1) hv
        rw [hu] at ht
        exact ht rfl
      rcases scanUri_take (m := ms.1) hv with ⟨u', q, ht', hs'⟩ | ⟨u', -, hs'⟩ | ⟨u', q, -, -, -, hle⟩
      · rw [ht', parseRest, List.length_take, Nat.min_eq_left hcs] at ht
        rw [hs', parseRest] at hs
        rw [hs'] at hline
        cases hline
        exact lineOk_of_not_error ht hs hrun
      · rw [hs'] at hline; cases hline
      · have hms : m = ms.1 := by
          rcases scanUri_cases (s := s) (m := ms.1) (p := ms.2.length) with ⟨_, _, hx⟩ | ⟨_, hx⟩ | ⟨_, _, hx⟩ <;>
            rw [hx] at hline <;> cases hline
          rfl
        subst hms
        exact .of_le (Nat.le_trans (hle _ _ hline) hrun.le)

end

/-- A loop that has come to the blank line comes to it whatever follows. -/
theorem parseHeadersFrom_done {env : ParseEnv} {t : List UInt8} {p : Nat} {r rt : Request}
    (h : parseHeadersFrom env t t.length p r = (.done, rt)) : ∃ q r', parseHeadDone t.length q r' = (.done, rt) ∧
      ∀ s, s.take t.length = t → parseHeadersFrom env s s.length p r = parseHeadDone s.length q r' := by
  obtain ⟨p₁, r₁, q, hrun, hq, hd⟩ := linesRun_of_done h
  refine ⟨q, r₁, hd, fun s hst => ?_⟩
  rw [← hst] at hrun hq
  rw [hrun.of_take.parse, parseHeadersFrom_blank (scanHeader_of_take_blank hq).1]

/-- A request line seen in the cut buffer is that of the whole one. -/
theorem scanRequestLine_of_take {s : List UInt8} {c q : Nat} {m : HttpMethod} {u : Slice}
    (h : scanRequestLine (s.take c) = .line m u q) : scanRequestLine s = .line m u q := by
  cases hm : httpMethods.find? fun m => strncmp m.2 s with
  | none => rw [(scanRequestLine_take_unknown (c := c) hm).1] at h; cases h
  | some ms =>
    rw [scanRequestLine_take hm] at h
    split at h
    swap
    · cases h
    have hv : ¬VersionCut s c ms.2.length := by
      intro hv
      obtain ⟨u, hu⟩ := scanUri_take_versionCut (m := ms.1) hv
      rw [hu] at h; cases h
    rcases scanUri_take (m := ms.1) hv with ⟨u', q', ht, hs⟩ | ⟨u', ht, -⟩ | ⟨u', q', ht, -⟩ <;>
      rw [ht] at h <;> cases h
    rw [scanRequestLine_some hm, hs]

theorem parseAll_done {env : ParseEnv} {t : List UInt8} {r rt : Request} (h : parseAll env t r = (.done, rt)) :
    ∃ q r', parseHeadDone t.length q r' = (.done, rt) ∧
      ∀ s, s.take t.length = t → parseAll env s r = parseHeadDone s.length q r' := by
  rw [parseAll_eq] at h
  cases hl : scanRequestLine t with
  | unknown => rw [hl] at h; cases h
  | cut m u p =>
    rw [hl, parseRest, parseNotComplete] at h
    split at h <;> cases h
  | notHttp m u => rw [hl] at h; cases h
  | line m u p =>
    rw [hl, parseRest] at h
    obtain ⟨q, r', h₁, h₂⟩ := parseHeadersFrom_done h
    refine ⟨q, r', h₁, fun s hst => ?_⟩
    rw [← hst] at hl
    rw [parseAll_eq, scanRequestLine_of_take hl, parseRest]
    exact h₂ s hst

theorem parseHeadDone_mono {n m q : Nat} {r : Request} (hnm : n ≤ m) (h : (parseHeadDone m q r).1 ≠ .error) :
    (parseHeadDone n q r).1 ≠ .error := by
  by_cases hst : r.method.isStore
  · by_cases hcl : r.contentLength = -1
    · simp [parseHeadDone, hst, hcl, parseFail] at h
    · have := parseHeadDone_body hst hcl h
      simp only [parseHeadDone, if_pos hst, if_neg hcl, if_neg (show ¬(n : Int) - q - 2 > r.contentLength by omega)]
      simp
  · simp [parseHeadDone, hst]

/-- The parses of `request_read_request_header`, one for each chunk received,
until there is an answer. -/
def parseChunks (env : ParseEnv) : List UInt8 → Request → List (List UInt8) → ParseRc × Request
  | _, r, [] => (.again, r)
  | received, r, chunk :: chunks =>
    match parseAll env (received ++ chunk) r with
    | (.again, r) => parseChunks env (received ++ chunk) r chunks
    | answer => answer

/-- Where the chunks that follow `n` bytes are cut from each other. -/
def cuts (n : Nat) : List (List UInt8) → List Nat
  | [] | [_] => []
  | chunk :: chunk' :: chunks => (n + chunk.length) :: cuts (n + chunk.length) (chunk' :: chunks)

/-- `r` is as good as the reset request for all that begins with `received`. -/
def Fresh (env : ParseEnv) (r₀ : Request) (received : List UInt8) (r : Request) : Prop :=
  ∀ s, s.take received.length = received → parseAll env s r = parseAll env s r₀

theorem Fresh.next {env : ParseEnv} {r₀ r rt : Request} {received chunk : List UInt8} (h0 : r₀.expire = 0)
    (h : Fresh env r₀ received r) (ha : parseAll env (received ++ chunk) r = (.again, rt)) :
    Fresh env r₀ (received ++ chunk) rt := by
  intro s hs
  rw [h _ (by simp)] at ha
  have hle : (received ++ chunk).length ≤ s.length := by
    have := congrArg List.length hs
    rw [List.length_take] at this
    omega
  rw [← hs] at ha
  exact parse_from_leftover hle h0 ha

theorem parseChunks_same {env : ParseEnv} {r₀ : Request} (h0 : r₀.expire = 0) {s : List UInt8} :
    ∀ {chunks received r}, chunks ≠ [] → s = received ++ chunks.flatten → Fresh env r₀ received r →
      (∀ c ∈ cuts received.length chunks, CutOk env s r₀ c) →
      SameParse (parseChunks env received r chunks) (parseAll env s r₀)
  | [], _, _, hne, _, _, _ => absurd rfl hne
  | [chunk], received, r, _, hs, hf, _ => by
    rw [List.flatten_cons, List.flatten_nil, List.append_nil] at hs
    rw [parseChunks, ← hs, hf s (by simp [hs])]
    split
    · next r' ha => rw [ha]; exact ⟨rfl, rfl⟩
    · exact ⟨rfl, rfl⟩
  | chunk :: chunk' :: chunks, received, r, _, hs, hf, hc => by
    have hs' : s = (received ++ chunk) ++ (chunk' :: chunks).flatten := by
      rw [hs, List.flatten_cons, List.append_assoc]
    have htake : s.take (received ++ chunk).length = received ++ chunk := by rw [hs', List.take_left']; rfl
    rw [parseChunks]
    split
    · next r' ha =>
      refine parseChunks_same h0 (by simp) hs' (hf.next h0 ha) fun c hcc => hc c ?_
      rw [List.length_append] at hcc
      exact List.mem_cons_of_mem _ hcc
    · next hna =>
      have hok := hc (received.length + chunk.length) (List.mem_cons_self)
      have hle : received.length + chunk.length ≤ s.length := by rw [hs']; simp
      rw [hf _ (by simp)] at hna ⊢
      rw [List.length_append] at htake
      rw [← htake] at hna ⊢
      rcases parseAll_take hle hok with ha | hsame
      · exact (hna _ (Prod.ext ha rfl)).elim
      · exact hsame

theorem cuts_bounds : ∀ {n : Nat} {chunks : List (List UInt8)}, ∀ c ∈ cuts n chunks,
    n ≤ c ∧ c ≤ n + chunks.flatten.length
  | _, [], c, hc => absurd hc (by simp [cuts])
  | _, [_], c, hc => absurd hc (by simp [cuts])
  | n, chunk :: chunk' :: chunks, c, hc => by
    rw [List.flatten_cons, List.length_append]
    rcases List.mem_cons.mp hc with rfl | hc
    · omega
    · have := cuts_bounds c hc
      omega

theorem parseChunks_no_error {env : ParseEnv} {r₀ : Request} (h0 : r₀.expire = 0) {s : List UInt8}
    (hs₀ : (parseAll env s r₀).1 ≠ .error) :
    ∀ {chunks received r}, s = received ++ chunks.flatten → Fresh env r₀ received r →
      (parseChunks env received r chunks).1 ≠ .error →
      ∀ c ∈ cuts received.length chunks, (parseAll env (s.take c) r₀).1 ≠ .error
  | [], _, _, _, _, _, c, hc => absurd hc (by simp [cuts])
  | [_], _, _, _, _, _, c, hc => absurd hc (by simp [cuts])
  | chunk :: chunk' :: chunks, received, r, hs, hf, he, c, hc => by
    have hs' : s = (received ++ chunk) ++ (chunk' :: chunks).flatten := by
      rw [hs, List.flatten_cons, List.append_assoc]
    have htake : s.take (received ++ chunk).length = received ++ chunk := by rw [hs', List.take_left']; rfl
    rw [parseChunks] at he
    have hfirst : parseAll env (received ++ chunk) r = parseAll env (received ++ chunk) r₀ := hf _ (by simp)
    rw [cuts, List.mem_cons, ← List.length_append] at hc
    split at he
    · next r' ha =>
      rcases hc with rfl | hc
      · rw [htake, ← hfirst, ha]; simp
      · exact parseChunks_no_error h0 hs₀ hs' (hf.next h0 ha) he c hc
    · rcases hc with rfl | hc
      · rwa [htake, ← hfirst]
      -- The answer was given at the blank line, which every later cut has too.
      next hna =>
      have hdone : parseAll env (received ++ chunk) r₀ = (.done, (parseAll env (received ++ chunk) r₀).2) := by
        rw [← hfirst]
        cases hv : (parseAll env (received ++ chunk) r).1 with
        | again => exact (hna _ (Prod.ext hv rfl)).elim
        | error => exact absurd hv he
        | done => exact Prod.ext hv rfl
      obtain ⟨q, r', -, hall⟩ := parseAll_done hdone
      have hb := cuts_bounds c hc
      rw [hall s htake] at hs₀
      rw [hall (s.take c) (by rw [List.take_take, Nat.min_eq_left hb.1, htake])]
      exact parseHeadDone_mono (by rw [List.length_take]; omega) hs₀

/-- The bytes received from one `request_reset` to the answer, in chunks. The
parser's answer is that for all of them at once if no chunk ends where
`CutOk` forbids it, and, for a sequence that is not refused as a whole,
only then. In that case every prefix of a request that is accepted is
incomplete or accepted. -/
theorem parse_chunks_iff (env : ParseEnv) (keepaliveTimeout : Nat) (r : Request) (chunk : List UInt8)
    (chunks : List (List UInt8)) :
    let r₀ := requestReset keepaliveTimeout r
    let s := (chunk :: chunks).flatten
    ((∀ c ∈ cuts 0 (chunk :: chunks), CutOk env s r₀ c) →
      SameParse (parseChunks env [] r₀ (chunk :: chunks)) (parseAll env s r₀)) ∧
    ((parseAll env s r₀).1 ≠ .error → SameParse (parseChunks env [] r₀ (chunk :: chunks)) (parseAll env s r₀) →
      ∀ c ∈ cuts 0 (chunk :: chunks), CutOk env s r₀ c) ∧
    ((parseAll env s r₀).1 = .done → ∀ c, c ≤ s.length →
      ((parseAll env (s.take c) r₀).1 ≠ .error ↔ CutOk env s r₀ c)) := by
  intro r₀ s
  have hf : Fresh env r₀ [] r₀ := fun _ _ => rfl
  refine ⟨fun hok => parseChunks_same rfl (by simp) rfl hf hok, fun hs hsame c hc => ?_,
    fun hd c hle => ⟨fun ht => ?_, fun hok => ?_⟩⟩
  · have hb := cuts_bounds c hc
    refine cutOk_of_not_error (by simp [s]; simp at hb; omega) ?_ hs
    exact @parseChunks_no_error env r₀ rfl s hs (chunk :: chunks) [] r₀ rfl hf (by rw [hsame.1]; exact hs) c hc
  · exact cutOk_of_not_error hle ht (by rw [hd]; simp)
  · rcases parseAll_take hle hok with ha | hsame
    · rw [ha]; simp
    · rw [hsame.1, hd]; simp

/-- A request that is accepted in one chunk and refused in two. -/
theorem parse_chunks_method_split :
    (parseAll ⟨0, 0, fun _ => -1⟩ (lit "GET / HTTP/1.1\r\n\r\n")
      (requestReset 60 ⟨.invalid, 0, false, 0, 0, none, none, none, none, [], 0, 0, false, 0, none⟩)).1 = .done ∧
    (parseChunks ⟨0, 0, fun _ => -1⟩ []
      (requestReset 60 ⟨.invalid, 0, false, 0, 0, none, none, none, none, [], 0, 0, false, 0, none⟩)
      [lit "GE", lit "T / HTTP/1.1\r\n\r\n"]).1 = .error := by
  decide

end OliveHc
