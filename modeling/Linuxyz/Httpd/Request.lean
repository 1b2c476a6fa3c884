import Linuxyz.Lib.Strtok

/-!
# Linuxyz.Httpd.Request

What `respond` of `nat_httpd.c` makes of the bytes of a request: the request line, the URI
with its escapes, the headers and the payload.

A URI is read back from every spelling of it (`uri_unescape_spells`), and a request is read back
from its parts, up to sixteen headers, if every header has a value and the path has no '?', not
even an escaped one (`respond_reads`).  HTTP asks for neither.  `strtok` goes past empty lines, so
that a header without a value takes the next line for it, and where there is no next line
`respond` follows a null pointer (`respond_crashes`).
-/

namespace Linuxyz.Httpd

/-! ## Bytes -/

def tab : UInt8 := 9
def lf : UInt8 := 10
def cr : UInt8 := 13
def space : UInt8 := 32
def percent : UInt8 := 37
def plus : UInt8 := 43
def colon : UInt8 := 58
def question : UInt8 := 63

/-- The bytes of an ASCII text. -/
def bytes (s : String) : List UInt8 := s.toList.map fun c => UInt8.ofNat c.toNat

/-- `isspace` of the C locale -/
def isspace (c : UInt8) : Bool := c = space ∨ (tab ≤ c ∧ c ≤ cr)

/-- " \t\r\n" -/
def wordEnd (c : UInt8) : Bool := c = space ∨ c = tab ∨ c = cr ∨ c = lf

/-- " \t" -/
def uriEnd (c : UInt8) : Bool := c = space ∨ c = tab

/-- "\r\n: \t" -/
def keyEnd (c : UInt8) : Bool := c = cr ∨ c = lf ∨ c = colon ∨ c = space ∨ c = tab

/-- "\r\n" -/
def lineEnd (c : UInt8) : Bool := c = cr ∨ c = lf

/-- The string in a buffer. -/
def cString (s : List UInt8) : List UInt8 := s.takeWhile (· ≠ 0)

/-! ## The URI -/

/-- A digit as `uri_unescape` reads it; `char` is signed, so that a byte from 128 on is not
greater than '9'. -/
def hexValue (c : UInt8) : UInt8 := (c &&& 0x0F) + if 57 < c ∧ c < 128 then 9 else 0

/-- The second loop of `uri_unescape`. -/
def unescapeFrom : List UInt8 → List UInt8
  | [] => []
  | c :: src =>
      if isspace c then []
      else if c = plus then space :: unescapeFrom src
      else if c = percent then
        match src with
        | a :: b :: src => (hexValue a * 16 + hexValue b) :: unescapeFrom src
        | src => c :: unescapeFrom src
      else c :: unescapeFrom src

/-- What the first loop of `uri_unescape` goes past. -/
def plain (c : UInt8) : Bool := !isspace c && c ≠ percent

/-- `uri_unescape`, with the string that the buffer then holds: an escaped NUL ends it. -/
def uriUnescape (uri : List UInt8) : List UInt8 :=
  cString (uri.takeWhile plain ++ unescapeFrom (uri.dropWhile plain))

/-! ## The request -/

structure Header where
  name : List UInt8
  value : List UInt8
deriving DecidableEq, Repr

structure Request where
  method : List UInt8
  uri : List UInt8
  qs : List UInt8
  prot : Option (List UInt8)
  reqhdr : List Header
  payload : Option (List UInt8)
deriving DecidableEq, Repr

/-- The loop over the headers, with places for `n` of them: the headers and what `strtok`
has still to read.  `none` is an access through `val` when it is null. -/
def readHeaders : Nat → List UInt8 → Option (List Header × List UInt8)
  | 0, s => some ([], s)
  | n + 1, s =>
      match strtok keyEnd s with
      | none => some ([], [])
      | some (key, s) =>
          match strtok lineEnd s with
          | none => none
          | some (val, s) =>
              let h : Header := ⟨key, val.dropWhile (· = space)⟩
              -- where the text ends with `val` the bytes behind it are not known, but then
              -- there is no further key either
              if s[1]? = some cr ∧ s[2]? = some lf then some ([h], s)
              else (readHeaders n s).map fun r => (h :: r.1, r.2)

/-- How many headers are read. -/
def maxHeaders : Nat := 16

/-- The first entry of `reqhdr` is not null before it is set. -/
def noHeaders : List Header := [⟨[], []⟩]

/-- `qs`, and `uri` up to it.  Without a '?', `qs` is the string that starts one byte in front
of `uri`, which is `before` or, where that is `none`, the NUL that `strtok` has put there. -/
def splitQuery (before : Option UInt8) (uri : List UInt8) : List UInt8 × List UInt8 :=
  if question ∈ uri then
    (uri.takeWhile (· ≠ question), (uri.dropWhile (· ≠ question)).drop 1)
  else (uri, match before with
    | none => []
    | some c => c :: uri)

/-- `BUF_SIZE` -/
def bufSize : Nat := 65535

/-- What `recv` gets at most of what a client has sent. -/
def received (sent : List UInt8) : List UInt8 := sent.take bufSize

/-- `respond` on the bytes received, up to `route`; `none` is an access through a null pointer.

At most `BUF_SIZE` bytes are received.  When it is that many, `buf[rcvd]` is the byte one past the
block that `malloc` has returned; the model takes it that the NUL can be written there. -/
def parseRequest (data : List UInt8) : Option Request :=
  match strtok wordEnd (cString data) with
  | none => none
  | some (method, s) =>
      match strtok uriEnd s with
      | none => none
      | some (uri, s₁) =>
          let prot := strtok wordEnd s₁
          let (uri, qs) := splitQuery (s.takeWhile uriEnd).getLast? (uriUnescape uri)
          match readHeaders maxHeaders ((prot.map Prod.snd).getD []) with
          | none => none
          | some (headers, s) =>
              some {
                method, uri, qs
                prot := prot.map Prod.fst
                reqhdr := if headers = [] then noHeaders else headers
                payload := (strtok lineEnd s).map Prod.fst }

/-- `request_header` -/
def requestHeader (reqhdr : List Header) (name : List UInt8) : Option (List UInt8) :=
  (reqhdr.find? (·.name = name)).map Header.value

/-- `route` of `main.c`: what it prints, where `index` is the file of the page if there is one.

That nothing else goes out in front of it holds for a standard output that is line buffered.  When
it is redirected, the line that `serve_forever` prints at its start is still in the buffer at each
`fork`, and a child sends it before its answer. -/
def route (index : Option (List UInt8)) (r : Request) : List UInt8 :=
  if r.uri = bytes "/" ∧ r.method = bytes "GET" then
    bytes "HTTP/1.1 200 OK\n\n" ++
      match index with
      | some page => page
      | none =>
          bytes "Hello! You are using " ++
            (requestHeader r.reqhdr (bytes "User-Agent")).getD (bytes "(null)") ++ bytes "\n\n"
  else bytes "HTTP/1.1 500 Internal Server Error\n\n"

/-! ## The URI is read back -/

/-- `Digit v c`: the hexadecimal digit `c`, in upper or lower case, stands for `v`. -/
inductive Digit : UInt8 → UInt8 → Prop where
  | decimal {v : UInt8} (hv : v < 10) : Digit v (48 + v)
  | upper {v : UInt8} (hlow : 10 ≤ v) (hv : v < 16) : Digit v (55 + v)
  | lower {v : UInt8} (hlow : 10 ≤ v) (hv : v < 16) : Digit v (87 + v)

/-- `Spells seen uri text`: the text is a spelling of the URI, behind an escape if `seen`.  Only
there does '+' stand for a blank; in front of the first escape it stands for itself. -/
inductive Spells : Bool → List UInt8 → List UInt8 → Prop where
  | nil {seen : Bool} : Spells seen [] []
  | literal {seen : Bool} {c : UInt8} {uri text : List UInt8} (hc : plain c = true) (hzero : c ≠ 0)
      (hplus : c = plus → seen = false) (h : Spells seen uri text) :
      Spells seen (c :: uri) (c :: text)
  | blank {uri text : List UInt8} (h : Spells true uri text) :
      Spells true (space :: uri) (plus :: text)
  | escape {seen : Bool} {high low a b : UInt8} {uri text : List UInt8} (ha : Digit high a)
      (hb : Digit low b)
      (hzero : high * 16 + low ≠ 0) (h : Spells true uri text) :
      Spells seen ((high * 16 + low) :: uri) (percent :: a :: b :: text)

/-- A digit in either case is read as its value. -/
theorem Digit.hexValue_eq {v c : UInt8} (h : Digit v c) : hexValue c = v := by
  have hall : ∀ n : Fin 16,
      (n.val < 10 → hexValue (48 + UInt8.ofNat n) = UInt8.ofNat n) ∧
        (10 ≤ n.val → hexValue (55 + UInt8.ofNat n) = UInt8.ofNat n ∧
          hexValue (87 + UInt8.ofNat n) = UInt8.ofNat n) := by decide
  cases h with
  | decimal hv =>
      have hn : v.toNat < 10 := hv
      simpa using (hall ⟨v.toNat, by omega⟩).1 hn
  | upper hlow hv => simpa using ((hall ⟨v.toNat, hv⟩).2 hlow).1
  | lower hlow hv => simpa using ((hall ⟨v.toNat, hv⟩).2 hlow).2

theorem cString_eq_self {s : List UInt8} (h : ∀ c ∈ s, c ≠ 0) : cString s = s :=
  List.takeWhile_eq_self_iff.mpr fun c hc => decide_eq_true (h c hc)

/-- No byte of a URI that has a spelling is NUL. -/
theorem Spells.ne_zero {seen : Bool} {uri text : List UInt8} (h : Spells seen uri text) :
    ∀ c ∈ uri, c ≠ 0 := by
  induction h with
  | nil => exact fun c hc => absurd hc List.not_mem_nil
  | literal _ hzero _ _ ih | escape _ _ hzero _ ih => exact List.forall_mem_cons.mpr ⟨hzero, ih⟩
  | blank _ ih => exact List.forall_mem_cons.mpr ⟨by decide, ih⟩

theorem unescapeFrom_plain {c : UInt8} {src : List UInt8} (hc : plain c = true) (hplus : c ≠ plus) :
    unescapeFrom (c :: src) = c :: unescapeFrom src := by
  obtain ⟨hspace, hpercent⟩ := Bool.and_eq_true_iff.mp hc
  have hspace : ¬isspace c = true := by simpa using hspace
  rw [unescapeFrom.eq_def]
  dsimp only
  rw [if_neg hspace, if_neg hplus, if_neg (of_decide_eq_true hpercent)]

theorem unescapeFrom_plus (src : List UInt8) :
    unescapeFrom (plus :: src) = space :: unescapeFrom src := by
  rw [unescapeFrom.eq_def]
  rfl

theorem unescapeFrom_escape (a b : UInt8) (src : List UInt8) :
    unescapeFrom (percent :: a :: b :: src) = (hexValue a * 16 + hexValue b) :: unescapeFrom src :=
  rfl

/-- Behind an escape the second loop reads the spelling. -/
theorem Spells.unescapeFrom_eq {uri text : List UInt8} (h : Spells true uri text) :
    unescapeFrom text = uri := by
  generalize hseen : true = seen at h
  induction h with
  | nil => rfl
  | @literal seen c uri text hc _ hplus _ ih =>
      have hnot : c ≠ plus := fun heq => Bool.noConfusion (hseen.trans (hplus heq))
      rw [unescapeFrom_plain hc hnot, ih hseen]
  | blank _ ih => rw [unescapeFrom_plus, ih rfl]
  | escape ha hb _ _ ih => rw [unescapeFrom_escape, ha.hexValue_eq, hb.hexValue_eq, ih rfl]

/-- What both loops leave of a spelling. -/
theorem Spells.loops_eq {uri text : List UInt8} (h : Spells false uri text) :
    text.takeWhile plain ++ unescapeFrom (text.dropWhile plain) = uri := by
  generalize hseen : false = seen at h
  induction h with
  | nil => rfl
  | literal hc _ _ _ ih =>
      rw [List.takeWhile_cons_of_pos hc, List.dropWhile_cons_of_pos hc, List.cons_append, ih hseen]
  | blank => cases hseen
  | @escape seen high low a b uri text ha hb hzero h _ =>
      -- the first loop stops here, and the second one reads the rest
      have hstop : ¬plain percent = true := by decide
      rw [List.takeWhile_cons_of_neg hstop, List.dropWhile_cons_of_neg hstop, List.nil_append]
      have hrest : Spells true ((high * 16 + low) :: uri) (percent :: a :: b :: text) :=
        .escape ha hb hzero h
      exact hrest.unescapeFrom_eq

/-- **Every spelling is read back.**  Whichever bytes of a URI are escaped, and in which case
the digits are written, `uri_unescape` gives the URI. -/
theorem uri_unescape_spells {uri text : List UInt8} (h : Spells false uri text) :
    uriUnescape text = uri := by
  rw [uriUnescape, h.loops_eq, cString_eq_self h.ne_zero]

/-- The spelling "/+%2b+" of "/++ ". -/
theorem uri_unescape_spells_plus : uriUnescape [47, 43, 37, 50, 98, 43] = [47, 43, 43, 32] := by
  have htwo : Digit 2 50 := .decimal (by decide)
  have heleven : Digit 11 98 := .lower (by decide) (by decide)
  have hescape : Spells false [43, 32] [37, 50, 98, 43] :=
    .escape htwo heleven (by decide) (.blank .nil)
  have hplus : Spells false [43, 43, 32] [43, 37, 50, 98, 43] :=
    .literal (by decide) (by decide) (by decide) hescape
  exact uri_unescape_spells (.literal (by decide) (by decide) (by decide) hplus)

/-! ## Requests and their parts

The conditions below are what `respond` needs to tell the parts of a request from each other.  They
are narrower than HTTP. -/

def crlf : List UInt8 := [cr, lf]

/-- A text that `strtok` reads as one token. -/
structure Token (d : UInt8 → Bool) (s : List UInt8) : Prop where
  ne_nil : s ≠ []
  not_end : ∀ c ∈ s, d c = false
  ne_zero : ∀ c ∈ s, c ≠ 0

theorem Token.of_all {d : UInt8 → Bool} {s : List UInt8} (hne : s ≠ [])
    (hall : s.all (fun c => !d c && c != 0) = true) : Token d s := by
  have hbytes : ∀ c ∈ s, d c = false ∧ c ≠ 0 :=
    fun c hc => by simpa using List.all_eq_true.mp hall c hc
  exact ⟨hne, fun c hc => (hbytes c hc).1, fun c hc => (hbytes c hc).2⟩

/-- A header that `respond` reads by itself.  Its value is not empty, since `strtok` would go on to
the next line for it, and does not start with a blank, since the blanks in front of a value are
left out. -/
structure Header.Valid (h : Header) : Prop where
  name : Token keyEnd h.name
  value : Token lineEnd h.value
  start : h.value.head? ≠ some space

/-- The line of a header, with one blank behind the colon. -/
def Header.text (h : Header) : List UInt8 := h.name ++ colon :: ((space :: h.value) ++ crlf)

/-- A request: the path and the query, the spelling of both in the request line, and the rest. -/
structure Parts where
  method : List UInt8
  path : List UInt8
  query : Option (List UInt8)
  target : List UInt8
  prot : List UInt8
  headers : List Header
  body : List UInt8

def Parts.uri (p : Parts) : List UInt8 := p.path ++ (p.query.map (question :: ·)).getD []

/-- Requests that `respond` takes apart rightly.  The target is a spelling in the sense of
`uri_unescape`, where '+' behind an escape is a blank; and since the escapes are undone before the
URI is split at its first '?', the path may not have one even if it is escaped. -/
structure Parts.Valid (p : Parts) : Prop where
  method : Token wordEnd p.method
  path_ne_nil : p.path ≠ []
  path : question ∉ p.path
  target : Spells false p.uri p.target
  prot : Token wordEnd p.prot
  headers : ∀ h ∈ p.headers, h.Valid

/-- The request line without its line feed. -/
def Parts.line (p : Parts) : List UInt8 :=
  p.method ++ space :: (p.target ++ space :: (p.prot ++ [cr]))

def Parts.text (p : Parts) : List UInt8 :=
  p.line ++ lf :: (p.headers.flatMap Header.text ++ (crlf ++ p.body))

/-- The request up to its headers, and then a header with nothing directly behind the colon but
`ends`. -/
def Parts.textNoValue (p : Parts) (name ends : List UInt8) : List UInt8 :=
  p.line ++ lf :: (p.headers.flatMap Header.text ++ (name ++ colon :: ends))

/-! ## The headers -/

variable {h : Header} {hs : List Header} {n : Nat} {s tail b : List UInt8} {p : Parts}

theorem Token.strtok {d : UInt8 → Bool} {c : UInt8} (h : Token d s) (hc : d c = true)
    (tail : List UInt8) : Linuxyz.strtok d (s ++ c :: tail) = some (s, tail) :=
  strtok_of_token h.ne_nil h.not_end hc

theorem Token.head_ne {d : UInt8 → Bool} {c : UInt8} (h : Token d s) (hc : d c = true)
    (tail : List UInt8) : (s ++ tail)[0]? ≠ some c := by
  obtain ⟨a, rest, rfl⟩ := List.exists_cons_of_ne_nil h.ne_nil
  intro heq
  have ha : a = c := Option.some.inj heq
  have hend := h.not_end a List.mem_cons_self
  rw [ha, hc] at hend
  cases hend

theorem Header.Valid.dropWhile_space (hh : h.Valid) :
    (space :: h.value).dropWhile (· = space) = h.value := by
  obtain ⟨c, rest, hvalue⟩ := List.exists_cons_of_ne_nil hh.value.ne_nil
  have hc : c ≠ space := fun heq => hh.start (by rw [hvalue, heq]; rfl)
  rw [hvalue, List.dropWhile_cons_of_pos (by simp), List.dropWhile_cons_of_neg (by simpa using hc)]

/-- One round of the loop, over a header that is well formed. -/
theorem readHeaders_succ (hh : h.Valid) (n : Nat) (tail : List UInt8) :
    readHeaders (n + 1) (lf :: (h.text ++ tail)) =
      if tail[0]? = some cr ∧ tail[1]? = some lf then some ([h], lf :: tail)
      else (readHeaders n (lf :: tail)).map fun r => (h :: r.1, r.2) := by
  have hkey : strtok keyEnd (lf :: (h.text ++ tail)) =
      some (h.name, (space :: h.value) ++ cr :: lf :: tail) := by
    have hlf : keyEnd lf = true := by decide
    rw [strtok_cons_of_delimiter hlf, Header.text, List.append_assoc, List.cons_append,
      List.append_assoc]
    exact hh.name.strtok (by decide) _
  have hvalue : Token lineEnd (space :: h.value) :=
    ⟨List.cons_ne_nil _ _, List.forall_mem_cons.mpr ⟨by decide, hh.value.not_end⟩,
      List.forall_mem_cons.mpr ⟨by decide, hh.value.ne_zero⟩⟩
  rw [readHeaders, hkey]
  dsimp only
  rw [hvalue.strtok (by decide)]
  dsimp only
  rw [hh.dropWhile_space]
  rfl

theorem Header.Valid.text_head (hh : h.Valid) (tail : List UInt8) :
    (h.text ++ tail)[0]? ≠ some cr := by
  rw [Header.text, List.append_assoc]
  exact hh.name.head_ne (by decide) _

/-- The loop reads the headers that it has places for, and stands behind them. -/
theorem readHeaders_text (hne : hs ≠ []) (hall : ∀ h ∈ hs, h.Valid) (n : Nat) (b : List UInt8) :
    readHeaders n (lf :: (hs.flatMap Header.text ++ (crlf ++ b))) =
      some (hs.take n, lf :: ((hs.drop n).flatMap Header.text ++ (crlf ++ b))) := by
  induction hs generalizing n with
  | nil => exact absurd rfl hne
  | cons h hs ih =>
      obtain ⟨hh, hall⟩ := List.forall_mem_cons.mp hall
      cases n with
      | zero => rfl
      | succ n =>
          rw [List.flatMap_cons, List.append_assoc, readHeaders_succ hh]
          cases hs with
          | nil =>
              rw [if_pos ⟨rfl, rfl⟩, List.take_succ_cons, List.drop_succ_cons, List.take_nil,
                List.drop_nil]
          | cons h' hs =>
              have hh' : h'.Valid := hall h' List.mem_cons_self
              rw [if_neg fun hend => ?_, ih (List.cons_ne_nil _ _) hall]
              · rfl
              · rw [List.flatMap_cons, List.append_assoc] at hend
                exact hh'.text_head _ hend.1

/-! ## The request line -/

theorem cString_append (hs : ∀ c ∈ s, c ≠ 0)
    (tail : List UInt8) : cString (s ++ tail) = s ++ cString tail :=
  List.takeWhile_append_of_pos fun c hc => decide_eq_true (hs c hc)

theorem Digit.token {v c : UInt8} (h : Digit v c) : uriEnd c = false ∧ c ≠ 0 := by
  have hall : ∀ n : Fin 16, (uriEnd (48 + UInt8.ofNat n) = false ∧ 48 + UInt8.ofNat n ≠ 0) ∧
      (uriEnd (55 + UInt8.ofNat n) = false ∧ 55 + UInt8.ofNat n ≠ 0) ∧
      uriEnd (87 + UInt8.ofNat n) = false ∧ 87 + UInt8.ofNat n ≠ 0 := by decide
  cases h with
  | decimal hv =>
      have hn : v.toNat < 10 := hv
      simpa using (hall ⟨v.toNat, by omega⟩).1
  | upper _ hv => simpa using (hall ⟨v.toNat, hv⟩).2.1
  | lower _ hv => simpa using (hall ⟨v.toNat, hv⟩).2.2

theorem uriEnd_of_plain {c : UInt8} (hc : plain c = true) : uriEnd c = false := by
  obtain ⟨hspace, -⟩ := Bool.and_eq_true_iff.mp hc
  simp only [isspace, uriEnd, Bool.not_eq_eq_eq_not, Bool.not_true, decide_eq_false_iff_not,
    not_or] at hspace ⊢
  exact ⟨hspace.1, fun heq => hspace.2 (by rw [heq]; decide)⟩

/-- A spelling is one token: it has no blank, which is written as an escape or as
'+'. -/
theorem Spells.token {seen : Bool} {uri text : List UInt8} (h : Spells seen uri text)
    (hne : uri ≠ []) : Token uriEnd text := by
  have hbytes : ∀ c ∈ text, uriEnd c = false ∧ c ≠ 0 := by
    clear hne
    induction h with
    | nil => exact fun c hc => absurd hc List.not_mem_nil
    | literal hc hzero _ _ ih => exact List.forall_mem_cons.mpr ⟨⟨uriEnd_of_plain hc, hzero⟩, ih⟩
    | blank _ ih => exact List.forall_mem_cons.mpr ⟨by decide, ih⟩
    | escape ha hb _ _ ih =>
        exact List.forall_mem_cons.mpr ⟨by decide, List.forall_mem_cons.mpr ⟨ha.token,
          List.forall_mem_cons.mpr ⟨hb.token, ih⟩⟩⟩
  refine ⟨?_, fun c hc => (hbytes c hc).1, fun c hc => (hbytes c hc).2⟩
  rintro rfl
  cases h
  exact hne rfl

theorem Parts.Valid.target_token (hp : p.Valid) : Token uriEnd p.target :=
  hp.target.token fun h => hp.path_ne_nil (List.append_eq_nil_iff.mp h).1

/-- The request line has no NUL. -/
theorem Parts.Valid.line_ne_zero (hp : p.Valid) : ∀ c ∈ p.line, c ≠ 0 := by
  intro c hc
  simp only [Parts.line, List.mem_append, List.mem_cons, List.not_mem_nil, or_false] at hc
  rcases hc with hc | rfl | hc | rfl | hc | rfl
  · exact hp.method.ne_zero c hc
  · decide
  · exact hp.target_token.ne_zero c hc
  · decide
  · exact hp.prot.ne_zero c hc
  · decide

/-- The URI is split at the '?' between path and query, as the path has none. -/
theorem Parts.Valid.splitQuery_uri (hp : p.Valid) :
    splitQuery none p.uri = (p.path, p.query.getD []) := by
  have hpath : ∀ c ∈ p.path, decide (c ≠ question) = true := fun c hc =>
    decide_eq_true fun heq => hp.path (heq ▸ hc)
  cases hq : p.query with
  | none => simp [splitQuery, Parts.uri, hq, hp.path]
  | some query =>
      have huri : p.uri = p.path ++ question :: query := by rw [Parts.uri, hq]; rfl
      rw [splitQuery, huri, if_pos (List.mem_append_right _ List.mem_cons_self),
        List.takeWhile_append_of_pos hpath, List.dropWhile_append_of_pos hpath]
      simp

/-- What `respond` reads of a request line, whatever stands behind it. -/
theorem parseRequest_line (hp : p.Valid) (tail : List UInt8) :
    parseRequest (p.line ++ tail) =
      (readHeaders maxHeaders (cString tail)).map fun r =>
        { method := p.method, uri := p.path, qs := p.query.getD [], prot := some p.prot
          reqhdr := if r.1 = [] then noHeaders else r.1
          payload := (strtok lineEnd r.2).map Prod.fst } := by
  have htarget := hp.target_token
  have hbefore : (p.target ++ space :: (p.prot ++ cr :: cString tail)).takeWhile uriEnd = [] := by
    obtain ⟨c, rest, heq⟩ := List.exists_cons_of_ne_nil htarget.ne_nil
    have hc : uriEnd c = false := htarget.not_end c (by rw [heq]; exact List.mem_cons_self)
    rw [heq, List.cons_append, List.takeWhile_cons_of_neg (by rw [hc]; exact Bool.false_ne_true)]
  have htext : cString (p.line ++ tail) =
      p.method ++ space :: (p.target ++ space :: (p.prot ++ cr :: cString tail)) := by
    rw [cString_append hp.line_ne_zero]
    simp [Parts.line]
  rw [parseRequest, htext, hp.method.strtok (by decide)]
  dsimp only
  rw [htarget.strtok (by decide), hbefore]
  dsimp only
  have huri : uriUnescape p.target = p.uri := by
    rw [uriUnescape, hp.target.loops_eq, cString_eq_self hp.target.ne_zero]
  rw [hp.prot.strtok (by decide), huri, List.getLast?_nil, hp.splitQuery_uri]
  dsimp only [Option.map_some, Option.getD_some]
  cases readHeaders maxHeaders (cString tail) <;> rfl

/-- Headers have no NUL either. -/
theorem headers_ne_zero (hall : ∀ h ∈ hs, h.Valid) : ∀ c ∈ hs.flatMap Header.text, c ≠ 0 := by
  intro c hc
  obtain ⟨h, hmem, hc⟩ := List.mem_flatMap.mp hc
  have hh := hall h hmem
  simp only [Header.text, crlf, List.mem_append, List.mem_cons, List.not_mem_nil, or_false] at hc
  rcases hc with hc | rfl | (rfl | hc) | rfl | rfl
  · exact hh.name.ne_zero c hc
  · decide
  · decide
  · exact hh.value.ne_zero c hc
  · decide
  · decide

theorem received_of_lt (hsize : s.length < bufSize) : received s = s :=
  List.take_of_length_le (Nat.le_of_lt hsize)

/-- **A request is read back.**  Let a request have a header, let every header have a value, let
the path be without '?', and let the whole be shorter than the buffer.  Then `respond` reads the
method, the path and the query, however they are escaped, the protocol and the first sixteen
headers.  The payload is one line only: the first one of the body, or the seventeenth header where
there is one. -/
theorem respond_reads (hp : p.Valid) (hne : p.headers ≠ []) (hsize : p.text.length < bufSize) :
    parseRequest (received p.text) = some
      { method := p.method, uri := p.path, qs := p.query.getD [], prot := some p.prot
        reqhdr := p.headers.take maxHeaders
        payload := (strtok lineEnd
          ((p.headers.drop maxHeaders).flatMap Header.text ++ (crlf ++ cString p.body))).map
            Prod.fst } := by
  have htail : cString (lf :: (p.headers.flatMap Header.text ++ (crlf ++ p.body))) =
      lf :: (p.headers.flatMap Header.text ++ (crlf ++ cString p.body)) := by
    have hlf : ∀ c ∈ [lf], c ≠ 0 := List.forall_mem_singleton.mpr (by decide)
    have hcrlf : ∀ c ∈ crlf, c ≠ 0 :=
      List.forall_mem_cons.mpr ⟨by decide, List.forall_mem_singleton.mpr (by decide)⟩
    rw [← List.singleton_append, cString_append hlf, cString_append (headers_ne_zero hp.headers),
      cString_append hcrlf]
    rfl
  have hsome : p.headers.take maxHeaders ≠ [] := fun h => by
    rcases List.take_eq_nil_iff.mp h with h | h
    · cases h
    · exact hne h
  have hlf : lineEnd lf = true := by decide
  rw [received_of_lt hsize, Parts.text, parseRequest_line hp, htail,
    readHeaders_text hne hp.headers, Option.map_some]
  dsimp only
  rw [if_neg hsome, strtok_cons_of_delimiter hlf]

/-- "GET /", with one header and a body of two lines. -/
def getRoot : Parts where
  method := [71, 69, 84]
  path := [47]
  query := none
  target := [47]
  prot := [72]
  headers := [⟨[65], [66]⟩]
  body := [67, 10, 68]

theorem getRoot_valid : getRoot.Valid where
  method := .of_all (by decide) (by decide)
  path_ne_nil := by decide
  path := by decide
  target := .literal (by decide) (by decide) (by decide) .nil
  prot := .of_all (by decide) (by decide)
  headers := List.forall_mem_singleton.mpr
    ⟨.of_all (by decide) (by decide), .of_all (by decide) (by decide), by decide⟩

theorem respond_reads_root :
    (parseRequest (received getRoot.text)).map (fun r => (r.uri, r.reqhdr, r.payload)) =
      some ([47], [⟨[65], [66]⟩], some [67]) := by
  rw [respond_reads getRoot_valid (by decide) (by decide)]
  decide

-- "/a%3Fb" is taken for the path "/a" with the query "b"
example : splitQuery none (uriUnescape [47, 97, 37, 51, 70, 98]) = ([47, 97], [98]) := by decide

-- the header "A:" has the line "B: c" for its value
example : readHeaders maxHeaders ([65, 58, 13, 10, 66, 58, 32, 99] ++ crlf ++ crlf) =
    some ([⟨[65], [66, 58, 32, 99]⟩], [10, 13, 10]) := by decide

/-- The loop comes to a key with nothing but line ends behind it. -/
theorem readHeaders_no_value {name ends : List UInt8} (hall : ∀ h ∈ hs, h.Valid)
    (hn : hs.length < n) (hname : Token keyEnd name) (hends : ∀ c ∈ ends, lineEnd c = true) :
    readHeaders n (lf :: (hs.flatMap Header.text ++ (name ++ colon :: ends))) = none := by
  induction hs generalizing n with
  | nil =>
      obtain ⟨n, rfl⟩ := Nat.exists_eq_add_one_of_ne_zero (Nat.ne_of_gt hn)
      have hlf : keyEnd lf = true := by decide
      rw [readHeaders, List.flatMap_nil, List.nil_append, strtok_cons_of_delimiter hlf,
        hname.strtok (by decide)]
      dsimp only
      rw [strtok_of_delimiters hends]
  | cons h hs ih =>
      obtain ⟨hh, hall⟩ := List.forall_mem_cons.mp hall
      obtain ⟨n, rfl⟩ := Nat.exists_eq_add_one_of_ne_zero (Nat.ne_of_gt (Nat.zero_lt_of_lt hn))
      rw [List.flatMap_cons, List.append_assoc, readHeaders_succ hh,
        ih hall (Nat.lt_of_succ_lt_succ hn), if_neg]
      · rfl
      · rintro ⟨hcr, -⟩
        cases hs with
        | nil => exact hname.head_ne (by decide) _ hcr
        | cons h' hs =>
            rw [List.flatMap_cons, List.append_assoc] at hcr
            exact (hall h' List.mem_cons_self).text_head _ hcr

/-- **A header without a value.**  Let all headers of a request have values but the last, which is
one of the first sixteen, and let nothing but line ends stand behind its colon, not even a blank.
Then `respond` follows a null pointer. -/
theorem respond_crashes (hp : p.Valid) (hlen : p.headers.length < maxHeaders)
    {name ends : List UInt8} (hname : Token keyEnd name) (hends : ∀ c ∈ ends, lineEnd c = true)
    (hsize : (p.textNoValue name ends).length < bufSize) :
    parseRequest (received (p.textNoValue name ends)) = none := by
  have hzero : ∀ c ∈ lf :: (p.headers.flatMap Header.text ++ (name ++ colon :: ends)), c ≠ 0 := by
    intro c hc
    simp only [List.mem_cons, List.mem_append] at hc
    rcases hc with rfl | hc | hc | rfl | hc
    · decide
    · exact headers_ne_zero hp.headers c hc
    · exact hname.ne_zero c hc
    · decide
    · rintro rfl
      exact absurd (hends 0 hc) (by decide)
  rw [received_of_lt hsize, Parts.textNoValue, parseRequest_line hp, cString_eq_self hzero,
    readHeaders_no_value hp.headers hlen hname hends, Option.map_none]

/-- A second header "X:" behind the first one. -/
theorem respond_crashes_root :
    parseRequest (received (getRoot.textNoValue [88] [13, 10, 13, 10])) = none :=
  respond_crashes getRoot_valid (by decide) (.of_all (by decide) (by decide))
    (List.all_eq_true.mp (by decide)) (by decide)

-- of two headers "A:" and "B:" without values the first has the second for its value
example : readHeaders maxHeaders ([65, 58, 13, 10, 66, 58] ++ crlf ++ crlf) =
    some ([⟨[65], [66, 58]⟩], [10, 13, 10]) := by decide

end Linuxyz.Httpd
