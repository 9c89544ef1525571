import Cyue.Http.Sender
import Cyue.Http.Length

/-!
# URLs

`parse_url` takes a text apart into a host, a port and a path, with one cursor and a case for each of
them.  It writes into three variables of the caller, and what it has written there is all that the
caller may rely on: an array is the list of the bytes that were written from its beginning on.
-/

namespace Cyue.Http

open Sender (nbrOk nbrEformat)

namespace Url

/-! ## The code -/

structure Out where
  ret : ℤ
  host : List UInt8
  port : Option ℕ
  path : List UInt8
  deriving DecidableEq

/-- The loop of the first case: what `t` wrote, and `i` and `w` behind it. -/
def hostLoop : List UInt8 → List UInt8 × ℕ × List UInt8
  | [] => ([], 0, [])
  | c :: w =>
      -- the byte itself is not compared with the separators, only the one behind it
      if w.head? = some 58 then ([c, 0], 1, w.tail)
      else if w.head? = some 47 then ([c, 0], 2, w)
      else
        let (t, i, w) := hostLoop w
        (c :: t, i, w)

/-- The loop of the second case: `tok`, and `w` behind it. -/
def portLoop : List UInt8 → List UInt8 × List UInt8
  | [] => ([], [])
  | c :: w =>
      if c = 47 then ([], c :: w)
      else
        let (t, w) := portLoop w
        (c :: t, w)

def pathCase (max : ℕ) (url w : List UInt8) (out : Out) : Out :=
  let path := if w.getLast? = some 10 then w.dropLast ++ [0, 0] else w ++ [0]
  { out with path := path, ret := if max < url.length then nbrEformat else nbrOk }

/-- The second case; `tok` has 65536 bytes. -/
def portCase (max : ℕ) (url w : List UInt8) (out : Out) : Option Out :=
  let (tok, w) := portLoop w
  if 65536 ≤ tok.length then none
  else
    match atoi tok 256 with
    | none => some { out with ret := nbrEformat }
    | some port =>
        let out := { out with port := some (port % 2 ^ 16).toNat }
        if w = [] then some { out with ret := nbrOk }
        else if max < url.length - w.length then some { out with ret := nbrEformat }
        else some (pathCase max url w out)

/-- `parse_url`; none where `tok` overflows. -/
def parseUrl (max : ℕ) (url : List UInt8) : Option Out :=
  if url = [] then some ⟨nbrEformat, [], none, []⟩
  else
    let (host, i, w) := hostLoop url
    let out : Out := ⟨nbrOk, host, some 80, []⟩
    if w = [] then some out
    else if max < url.length - w.length then some { out with ret := nbrEformat }
    else if i = 1 then portCase max url w out
    else some (pathCase max url w out)

end Url

/-! ## URLs and what they mean -/

/-- `host[:port][/path]`; the path is without its slash. -/
structure Url where
  host : List UInt8
  port : Option (List UInt8)
  path : Option (List UInt8)
  hostNonempty : host ≠ []
  hostPlain : ∀ c ∈ host, c ≠ 0 ∧ c ≠ 58 ∧ c ≠ 47
  portNonempty : ∀ p ∈ port, p ≠ []
  portPlain : ∀ p ∈ port, ∀ c ∈ p, c ≠ 0 ∧ c ≠ 47
  pathPlain : ∀ p ∈ path, ∀ c ∈ p, c ≠ 0

namespace Url

def portBytes (u : Url) : List UInt8 := u.port.elim [] fun p => 58 :: p

def pathBytes (u : Url) : List UInt8 := u.path.elim [] fun p => 47 :: p

def bytes (u : Url) : List UInt8 := u.host ++ (u.portBytes ++ u.pathBytes)

def portValue (u : Url) : Option ℕ :=
  u.port.elim (some 80) fun p => (decFrom 0 p).filter fun v => v < 65536

def Fits (u : Url) (max : ℕ) : Prop := u.host.length < max ∧ u.portValue ≠ none

def Holds (array text : List UInt8) : Prop := text ++ [0] <+: array

structure Right (u : Url) (max : ℕ) (out : Out) : Prop where
  room : out.host.length ≤ max
  taken : u.Fits max → out.ret = nbrOk ∧ Holds out.host u.host ∧ out.port = u.portValue ∧
    Holds out.path u.pathBytes
  refused : ¬ u.Fits max → out.ret < 0

def Numeric : List UInt8 → Prop
  | 45 :: s => decFrom 0 s ≠ none
  | s => decFrom 0 s ≠ none

/-- The kinds of URLs that come out right: with a path that has no newline at its end, in a text that
is not longer than the array for the host, behind no port or one of less than 256 digits; and with
a port that is refused for what it is or because the text is too long. -/
def Handled (u : Url) (max : ℕ) : Prop :=
  u.host.length < max ∧ (∀ p ∈ u.port, p.length < 65536) ∧
    ((u.portValue ≠ none ∧ u.path ≠ none ∧ u.pathBytes.getLast? ≠ some 10 ∧ u.bytes.length ≤ max ∧
        ∀ p ∈ u.port, p.length < 256) ∨
      (u.portValue = none ∧ ((∀ p ∈ u.port, ¬ Numeric p ∨ 256 ≤ p.length) ∨
        u.path ≠ none ∧ max < u.bytes.length)))

/-! ## The loops -/

/-- Whatever the first byte is, it belongs to the host. -/
theorem hostLoop_end {c : UInt8} {host : List UInt8} (plain : ∀ c ∈ host, c ≠ 58 ∧ c ≠ 47) :
    hostLoop (c :: host) = (c :: host, 0, []) := by
  induction host generalizing c with
  | nil => rfl
  | cons d host ih =>
      have other := plain d (List.mem_cons_self ..)
      have colon : (d :: host).head? ≠ some 58 := fun same => other.1 (Option.some.inj same)
      have slash : (d :: host).head? ≠ some 47 := fun same => other.2 (Option.some.inj same)
      rw [hostLoop, if_neg colon, if_neg slash, ih fun c mem => plain c (List.mem_cons_of_mem _ mem)]

theorem hostLoop_separator {c d : UInt8} {host w : List UInt8} (plain : ∀ c ∈ host, c ≠ 58 ∧ c ≠ 47)
    (separator : d = 58 ∨ d = 47) :
    hostLoop (c :: host ++ d :: w) =
      (c :: host ++ [0], if d = 58 then 1 else 2, if d = 58 then w else d :: w) := by
  induction host generalizing c with
  | nil =>
      rcases separator with rfl | rfl <;> rfl
  | cons e host ih =>
      have other := plain e (List.mem_cons_self ..)
      have colon : (e :: host ++ d :: w).head? ≠ some 58 := fun same => other.1 (Option.some.inj same)
      have slash : (e :: host ++ d :: w).head? ≠ some 47 := fun same => other.2 (Option.some.inj same)
      rw [List.cons_append, hostLoop, if_neg colon, if_neg slash,
        ih fun c mem => plain c (List.mem_cons_of_mem _ mem)]
      rfl

theorem portLoop_span (w : List UInt8) :
    portLoop w = (w.takeWhile fun c => c ≠ 47, w.dropWhile fun c => c ≠ 47) := by
  induction w with
  | nil => rfl
  | cons c w ih =>
      rw [portLoop, List.takeWhile_cons, List.dropWhile_cons]
      by_cases slash : c = 47
      · rw [if_pos slash, if_neg (by simpa using slash), if_neg (by simpa using slash)]
      · rw [if_neg slash, ih, if_pos (by simpa using slash), if_pos (by simpa using slash)]

theorem portLoop_eq {p w : List UInt8} (plain : ∀ c ∈ p, c ≠ 47) (ends : w = [] ∨ w.head? = some 47) :
    portLoop (p ++ w) = (p, w) := by
  have inside : ∀ c ∈ p, decide (c ≠ 47) = true := fun c mem => decide_eq_true (plain c mem)
  rw [portLoop_span, List.takeWhile_append_of_pos inside, List.dropWhile_append_of_pos inside]
  rcases ends with rfl | slash
  · rw [List.takeWhile_nil, List.append_nil]
    rfl
  · obtain ⟨w, rfl⟩ := List.head?_eq_some_iff.mp slash
    rw [List.takeWhile_cons_of_neg (by simp), List.dropWhile_cons_of_neg (by simp), List.append_nil]

/-! ## Ports -/

theorem digitsFrom_none_iff {max pos n : ℕ} {i : ℤ} {s : List UInt8} (plain : ∀ c ∈ s, c ≠ 0)
    (room : pos < max) :
    digitsFrom 10 decDigit max i pos s = none ↔ decFrom n s = none ∨ max ≤ pos + s.length := by
  induction s generalizing i pos n with
  | nil =>
      refine iff_of_false (Option.some_ne_none i) ?_
      rintro (bad | long)
      · exact Option.some_ne_none n bad
      · exact absurd long (Nat.not_le_of_lt room)
  | cons c s ih =>
      rw [digitsFrom, if_neg (plain c (List.mem_cons_self ..)), decFrom, List.length_cons]
      cases decDigit c with
      | none => exact iff_of_true rfl (.inl rfl)
      | some d =>
          by_cases full : max ≤ pos + 1
          · refine (iff_of_eq (congrArg (· = none) (if_pos full))).trans ?_
            exact iff_of_true rfl (.inr (by omega))
          · refine (iff_of_eq (congrArg (· = none) (if_neg full))).trans ?_
            rw [ih (n := n * 10 + d) (fun c mem => plain c (List.mem_cons_of_mem _ mem)) (by omega),
              Nat.add_assoc, Nat.add_comm 1]
            rfl

theorem atoi_none_iff {p : List UInt8} (plain : ∀ c ∈ p, c ≠ 0 ∧ c ≠ 47) :
    atoi p 256 = none ↔ ¬ Numeric p ∨ 256 ≤ p.length := by
  unfold atoi number
  split
  · rename_i s
    have plain := fun c mem => (plain c (List.mem_cons_of_mem 45 mem)).1
    rw [Option.map_eq_none_iff, digitsFrom_none_iff (n := 0) plain (by decide), List.length_cons,
      Nat.add_comm 1]
    have numeric : Numeric (45 :: s) ↔ decFrom 0 s ≠ none := Iff.rfl
    rw [numeric, not_not]
  · rename_i other
    rw [digitsFrom_none_iff (n := 0) (fun c mem => (plain c mem).1) (by decide), Nat.zero_add]
    unfold Numeric
    split
    · exact absurd rfl (other _)
    · rw [not_not]

/-- A port that fits survives the conversions. -/
theorem port_kept {v : ℕ} (fits : v < 65536) : (int32 v % 2 ^ 16).toNat = v := by
  have small : int32 v = v := Int.bmod_eq_of_le_mul_two (by omega) (by omega)
  rw [small]
  omega

/-! ## The four forms -/

theorem bytes_ne_nil (u : Url) : u.bytes ≠ [] := fun same =>
  u.hostNonempty (List.append_eq_nil_iff.mp same).1

theorem holds_append (text : List UInt8) : Holds (text ++ [0]) text := List.prefix_refl _

theorem not_holds_self (text : List UInt8) : ¬ Holds text text := by
  intro holds
  have le := holds.length_le
  rw [List.length_append] at le
  exact absurd le (Nat.not_succ_le_self _)

theorem not_holds_nil (text : List UInt8) : ¬ Holds [] text := fun holds =>
  List.append_ne_nil_of_right_ne_nil text (List.cons_ne_nil 0 []) (List.prefix_nil.mp holds)

/-- The newline at the end of a path is lost. -/
theorem pathCase_holds_iff (max : ℕ) (url w : List UInt8) (out : Out) :
    Holds (pathCase max url w out).path w ↔ w.getLast? ≠ some 10 := by
  unfold pathCase
  dsimp only
  split
  · rename_i newline
    refine iff_of_false ?_ (not_not_intro newline)
    intro holds
    obtain ⟨text, rfl⟩ := List.getLast?_eq_some_iff.mp newline
    have same := holds.eq_of_length (by simp)
    simp at same
  · rename_i other
    exact iff_of_true (holds_append w) other

theorem pathCase_ret (max : ℕ) (url w : List UInt8) (out : Out) :
    (pathCase max url w out).ret = if max < url.length then nbrEformat else nbrOk := rfl

theorem host_cons (u : Url) : ∃ c host, u.host = c :: host ∧ ∀ c ∈ host, c ≠ 58 ∧ c ≠ 47 := by
  obtain ⟨c, host, same⟩ := List.exists_cons_of_ne_nil u.hostNonempty
  refine ⟨c, host, same, fun d mem => (u.hostPlain d ?_).2⟩
  rw [same]
  exact List.mem_cons_of_mem c mem

/-- What the first case leaves of a host behind which there is more. -/
def begun (u : Url) : Out := ⟨nbrOk, u.host ++ [0], some 80, []⟩

theorem parseUrl_host {u : Url} (max : ℕ) (port : u.port = none) (path : u.path = none) :
    parseUrl max u.bytes = some ⟨nbrOk, u.host, some 80, []⟩ := by
  have bytes : u.bytes = u.host := by
    unfold bytes portBytes pathBytes
    rw [port, path]
    exact List.append_nil _
  unfold parseUrl
  obtain ⟨c, host, same, plain⟩ := u.host_cons
  rw [if_neg u.bytes_ne_nil, bytes, same, hostLoop_end plain]
  rfl

theorem parseUrl_slash {c : UInt8} {host : List UInt8} (max : ℕ) (w : List UInt8)
    (plain : ∀ c ∈ host, c ≠ 58 ∧ c ≠ 47) :
    parseUrl max (c :: host ++ 47 :: w) =
      some (if max < (c :: host).length then ⟨nbrEformat, c :: host ++ [0], some 80, []⟩
        else pathCase max (c :: host ++ 47 :: w) (47 :: w) ⟨nbrOk, c :: host ++ [0], some 80, []⟩) := by
  have ran : hostLoop (c :: host ++ 47 :: w) = (c :: host ++ [0], 2, 47 :: w) :=
    hostLoop_separator plain (.inr rfl)
  have length : (c :: host ++ 47 :: w).length - (47 :: w).length = (c :: host).length := by
    rw [List.length_append, Nat.add_sub_cancel]
  have third : ¬ 2 = 1 := by decide
  unfold parseUrl
  rw [if_neg (List.append_ne_nil_of_left_ne_nil (List.cons_ne_nil c host) _), ran]
  dsimp only
  rw [if_neg (List.cons_ne_nil 47 w), length, if_neg third]
  split
  · rfl
  · rfl

theorem parseUrl_colon {c : UInt8} {host w : List UInt8} (max : ℕ)
    (plain : ∀ c ∈ host, c ≠ 58 ∧ c ≠ 47) (more : w ≠ []) :
    parseUrl max (c :: host ++ 58 :: w) =
      if max < (c :: host).length + 1 then some ⟨nbrEformat, c :: host ++ [0], some 80, []⟩
      else portCase max (c :: host ++ 58 :: w) w ⟨nbrOk, c :: host ++ [0], some 80, []⟩ := by
  have ran : hostLoop (c :: host ++ 58 :: w) = (c :: host ++ [0], 1, w) :=
    hostLoop_separator plain (.inl rfl)
  have length : (c :: host ++ 58 :: w).length - w.length = (c :: host).length + 1 := by
    rw [List.length_append, List.length_cons (a := 58)]
    omega
  unfold parseUrl
  rw [if_neg (List.append_ne_nil_of_left_ne_nil (List.cons_ne_nil c host) _), ran]
  dsimp only
  rw [if_neg more, length, if_pos rfl]

theorem parseUrl_path {u : Url} (max : ℕ) (port : u.port = none) (path : u.path ≠ none) :
    parseUrl max u.bytes = some (if max < u.host.length then { u.begun with ret := nbrEformat }
      else pathCase max u.bytes u.pathBytes u.begun) := by
  obtain ⟨rest, path⟩ := Option.ne_none_iff_exists'.mp path
  obtain ⟨c, host, same, plain⟩ := u.host_cons
  have behind : u.pathBytes = 47 :: rest := by
    unfold pathBytes
    rw [path]
    rfl
  have bytes : u.bytes = c :: host ++ 47 :: rest := by
    unfold bytes portBytes
    rw [port, behind, same]
    rfl
  unfold begun
  rw [bytes, behind, same]
  exact parseUrl_slash max rest plain

theorem parseUrl_port {u : Url} {p : List UInt8} (max : ℕ) (port : u.port = some p) :
    parseUrl max u.bytes = if max < u.host.length + 1 then some { u.begun with ret := nbrEformat }
      else portCase max u.bytes (p ++ u.pathBytes) u.begun := by
  obtain ⟨c, host, same, plain⟩ := u.host_cons
  have bytes : u.bytes = c :: host ++ 58 :: (p ++ u.pathBytes) := by
    unfold bytes portBytes
    rw [port, same]
    rfl
  have nonempty : p ++ u.pathBytes ≠ [] := fun same =>
    u.portNonempty p port (List.append_eq_nil_iff.mp same).1
  unfold begun
  rw [bytes, same]
  exact parseUrl_colon max plain nonempty

theorem pathBytes_begins (u : Url) : u.pathBytes = [] ∨ u.pathBytes.head? = some 47 := by
  unfold pathBytes
  cases u.path with
  | none => exact .inl rfl
  | some rest => exact .inr rfl

theorem portCase_eq {u : Url} {p : List UInt8} (max : ℕ) (port : u.port = some p) (out : Out)
    (short : p.length < 65536) :
    portCase max u.bytes (p ++ u.pathBytes) out =
      (atoi p 256).elim (some { out with ret := nbrEformat }) fun port =>
        if u.pathBytes = [] then some { out with port := some (port % 2 ^ 16).toNat, ret := nbrOk }
        else if max < u.bytes.length - u.pathBytes.length then
          some { out with port := some (port % 2 ^ 16).toNat, ret := nbrEformat }
        else some (pathCase max u.bytes u.pathBytes
          { out with port := some (port % 2 ^ 16).toNat }) := by
  unfold portCase
  rw [portLoop_eq (fun c mem => (u.portPlain p port c mem).2) u.pathBytes_begins]
  dsimp only
  rw [if_neg (Nat.not_le_of_lt short)]
  cases atoi p 256 with
  | none => rfl
  | some port => rfl

theorem portCase_long {u : Url} {p : List UInt8} (max : ℕ) (port : u.port = some p) (out : Out)
    (long : ¬ p.length < 65536) : portCase max u.bytes (p ++ u.pathBytes) out = none := by
  unfold portCase
  rw [portLoop_eq (fun c mem => (u.portPlain p port c mem).2) u.pathBytes_begins]
  exact if_pos (Nat.le_of_not_lt long)

theorem pathBytes_eq_nil_iff (u : Url) : u.pathBytes = [] ↔ u.path = none := by
  unfold pathBytes
  cases u.path with
  | none => exact iff_of_true rfl rfl
  | some rest => exact iff_of_false (List.cons_ne_nil 47 rest) (Option.some_ne_none rest)

/-! ## The sender -/

theorem parsePath_written {max done port : ℕ} {url host host' path w : List UInt8} {port' : ℕ}
    (parsed : Sender.parsePath max done host port w = .parsed host' port' path)
    (length : url.length = done + w.length) (out : Out) (holds : Holds out.host host)
    (number : out.port = some port) :
    (pathCase max url w out).ret = nbrOk ∧ Holds (pathCase max url w out).host host' ∧
      (pathCase max url w out).port = some port' ∧ Holds (pathCase max url w out).path path := by
  unfold Sender.parsePath at parsed
  split at parsed
  · cases parsed
  · split at parsed
    · cases parsed
    · rename_i short
      obtain ⟨rfl, rfl, rfl⟩ := Sender.ParsedUrl.parsed.inj parsed
      rw [pathCase_ret, length, if_neg short]
      refine ⟨rfl, holds, number, ?_⟩
      unfold pathCase
      dsimp only
      have newline : lf = 10 := rfl
      rw [newline]
      split
      · exact ⟨[0], List.append_assoc ..⟩
      · exact holds_append w

theorem portCase_written {max done port : ℕ} {i : ℤ} {url w host host' path : List UInt8} {out : Out}
    (short : ¬ 65536 ≤ (w.takeWhile fun c => c ≠ 47).length)
    (number : atoi (w.takeWhile fun c => c ≠ 47) 256 = some i)
    (present : (w.dropWhile fun c => c ≠ 47) ≠ [])
    (parsed : (if max < done + (w.takeWhile fun c => c ≠ 47).length then .error nbrEformat
      else Sender.parsePath max (done + (w.takeWhile fun c => c ≠ 47).length) host (i % 2 ^ 16).toNat
        (w.dropWhile fun c => c ≠ 47)) = .parsed host' port path)
    (length : url.length = done + w.length) (holds : Holds out.host host) :
    ∃ out', portCase max url w out = some out' ∧ out'.ret = nbrOk ∧ Holds out'.host host' ∧
      out'.port = some port ∧ Holds out'.path path := by
  have whole := congrArg List.length
    (List.takeWhile_append_dropWhile (p := fun c : UInt8 => c ≠ 47) (l := w))
  rw [List.length_append] at whole
  unfold portCase
  rw [portLoop_span]
  dsimp only
  rw [if_neg short, number]
  dsimp only
  split at parsed
  · cases parsed
  · rename_i room
    rw [if_neg present, if_neg (by omega)]
    exact ⟨_, rfl, parsePath_written parsed (by omega) _ holds rfl⟩

/-- What the model of a request takes from a URL is in the arrays. -/
theorem parsed_written {max port : ℕ} {url host path : List UInt8}
    (parsed : Sender.parseUrl max url = .parsed host port path) :
    ∃ out, parseUrl max url = some out ∧ out.ret = nbrOk ∧ Holds out.host host ∧
      out.port = some port ∧ Holds out.path path := by
  cases url with
  | nil => cases parsed
  | cons c rest =>
      obtain ⟨host', behind, whole, plain, stop, first, second⟩ :
          ∃ host' behind, host' ++ behind = rest ∧ (∀ c ∈ host', c ≠ 58 ∧ c ≠ 47) ∧
            (∀ d ∈ behind.head?, d = 58 ∨ d = 47) ∧
            (rest.takeWhile fun c => c ≠ 58 ∧ c ≠ 47) = host' ∧
            (rest.dropWhile fun c => c ≠ 58 ∧ c ≠ 47) = behind := by
        refine ⟨_, _, List.takeWhile_append_dropWhile, fun c mem => ?_, fun d head => ?_, rfl, rfl⟩
        · exact of_decide_eq_true (List.mem_takeWhile_imp (p := fun c : UInt8 => c ≠ 58 ∧ c ≠ 47) mem)
        · have ends := List.head?_dropWhile_not (fun c : UInt8 => decide (c ≠ 58 ∧ c ≠ 47)) rest
          rw [head] at ends
          have ends := of_decide_eq_false ends
          rwa [not_and_or, not_not, not_not] at ends
      unfold Sender.parseUrl at parsed
      dsimp only at parsed
      rw [first, second] at parsed
      subst whole
      split at parsed
      · cases parsed
      · split at parsed
        · cases parsed
        · cases parsed
        · rename_i w more
          rw [show c :: (host' ++ 58 :: w) = c :: host' ++ 58 :: w from rfl,
            parseUrl_colon max plain more]
          split at parsed
          · cases parsed
          · rename_i room
            rw [if_neg room]
            split at parsed
            · cases parsed
            · rename_i short
              split at parsed
              · cases parsed
              · rename_i number
                split at parsed
                · cases parsed
                · rename_i present
                  refine portCase_written short number present parsed ?_ (holds_append _)
                  rw [List.length_append, List.length_cons (a := 58)]
                  omega
        · rename_i absent _ other
          have slash : behind.head? = some 47 := by
            cases behind with
            | nil => exact absurd rfl absent
            | cons d w =>
                rcases stop d rfl with rfl | rfl
                · exact absurd rfl (other w)
                · rfl
          obtain ⟨w, rfl⟩ := List.head?_eq_some_iff.mp slash
          rw [show c :: (host' ++ 47 :: w) = c :: host' ++ 47 :: w from rfl, parseUrl_slash max w plain]
          split at parsed
          · cases parsed
          · rename_i room
            rw [if_neg room]
            exact ⟨_, rfl, parsePath_written parsed (List.length_append ..) _ (holds_append _) rfl⟩

/-! ## The law -/

theorem portValue_none {u : Url} (port : u.port = none) : u.portValue = some 80 := by
  unfold portValue
  rw [port]
  rfl

/-- A port that has a value is read as it, unless it is too long. -/
theorem atoi_value {u : Url} {p : List UInt8} {v : ℕ} (port : u.port = some p)
    (value : u.portValue = some v) (short : p.length < 256) :
    ∃ i, atoi p 256 = some i ∧ (i % 2 ^ 16).toNat = v := by
  unfold portValue at value
  rw [port] at value
  obtain ⟨decimal, fits⟩ := Option.filter_eq_some_iff.mp value
  exact ⟨int32 v, atoi_dec decimal short, port_kept (of_decide_eq_true fits)⟩

theorem room_iff {u : Url} {max : ℕ} {array : List UInt8} (host : array = u.host ++ [0]) :
    array.length ≤ max ↔ u.host.length < max := by
  rw [host, List.length_append, List.length_singleton]
  rfl

/-- A call that returns no error is right only for a URL that fits. -/
theorem Right.fits {u : Url} {max : ℕ} {out : Out} (right : Right u max out) (ret : out.ret = nbrOk) :
    u.Fits max := by
  by_contra unfit
  have refused := right.refused unfit
  rw [ret] at refused
  exact absurd refused (by decide)

theorem nbrEformat_neg : nbrEformat < 0 := by decide

/-- An error is right for the URLs that do not fit. -/
theorem right_refused_iff {u : Url} {max : ℕ} {out : Out} (host : out.host = u.host ++ [0])
    (ret : out.ret < 0) : Right u max out ↔ u.host.length < max ∧ u.portValue = none := by
  constructor
  · intro right
    have room := (room_iff host).mp right.room
    refine ⟨room, ?_⟩
    by_contra value
    rw [(right.taken ⟨room, value⟩).1] at ret
    exact absurd ret (by decide)
  · rintro ⟨room, value⟩
    exact ⟨(room_iff host).mpr room, fun fits => absurd value fits.2, fun _ => ret⟩

theorem right_pathCase_iff {u : Url} {max : ℕ} {out : Out} (host : out.host = u.host ++ [0])
    (port : u.portValue ≠ none → out.port = u.portValue) :
    Right u max (pathCase max u.bytes u.pathBytes out) ↔ u.host.length < max ∧
      ((u.portValue ≠ none ∧ u.pathBytes.getLast? ≠ some 10 ∧ u.bytes.length ≤ max) ∨
        (u.portValue = none ∧ max < u.bytes.length)) := by
  have written : (pathCase max u.bytes u.pathBytes out).host = u.host ++ [0] := host
  by_cases long : max < u.bytes.length
  · have ret : (pathCase max u.bytes u.pathBytes out).ret < 0 := by
      rw [pathCase_ret, if_pos long]
      decide
    rw [right_refused_iff written ret]
    refine and_congr_right fun _ => ⟨fun value => .inr ⟨value, long⟩, ?_⟩
    rintro (⟨-, -, short⟩ | ⟨value, -⟩)
    · exact absurd long (Nat.not_lt_of_le short)
    · exact value
  · have ret : (pathCase max u.bytes u.pathBytes out).ret = nbrOk := by
      rw [pathCase_ret, if_neg long]
    constructor
    · intro right
      have room := (room_iff written).mp right.room
      have fits := right.fits ret
      obtain ⟨-, -, -, path⟩ := right.taken fits
      exact ⟨room, .inl ⟨fits.2, (pathCase_holds_iff ..).mp path, Nat.le_of_not_lt long⟩⟩
    · rintro ⟨room, ⟨value, newline, -⟩ | ⟨-, long'⟩⟩
      · refine ⟨(room_iff written).mpr room, fun _ => ?_, fun unfit => absurd ⟨room, value⟩ unfit⟩
        exact ⟨ret, written ▸ holds_append u.host, port value, (pathCase_holds_iff ..).mpr newline⟩
      · exact absurd long' long

theorem not_right_host (u : Url) (max : ℕ) : ¬ Right u max ⟨nbrOk, u.host, some 80, []⟩ := by
  intro right
  exact not_holds_self u.host (right.taken (right.fits rfl)).2.1

theorem handled_of_port_none {u : Url} (max : ℕ) (port : u.port = none) :
    u.Handled max ↔ u.host.length < max ∧ u.path ≠ none ∧ u.pathBytes.getLast? ≠ some 10 ∧
      u.bytes.length ≤ max := by
  have value := portValue_none port
  unfold Handled
  rw [value, port]
  constructor
  · rintro ⟨room, -, ⟨-, path, newline, short, -⟩ | ⟨absent, -⟩⟩
    · exact ⟨room, path, newline, short⟩
    · cases absent
  · rintro ⟨room, path, newline, short⟩
    refine ⟨room, fun p mem => ?_, .inl ⟨Option.some_ne_none 80, path, newline, short, fun p mem => ?_⟩⟩
    · cases mem
    · cases mem

theorem handled_of_port {u : Url} {p : List UInt8} (max : ℕ) (port : u.port = some p) :
    u.Handled max ↔ u.host.length < max ∧ p.length < 65536 ∧
      ((u.portValue ≠ none ∧ u.path ≠ none ∧ u.pathBytes.getLast? ≠ some 10 ∧ u.bytes.length ≤ max ∧
          p.length < 256) ∨
        (u.portValue = none ∧ (atoi p 256 = none ∨ u.path ≠ none ∧ max < u.bytes.length))) := by
  unfold Handled
  rw [port, atoi_none_iff (u.portPlain p port)]
  simp only [Option.mem_def, Option.some.injEq, forall_eq']

theorem right_portCase_iff {u : Url} {p : List UInt8} {max : ℕ} (port : u.port = some p)
    (room : u.host.length < max) :
    (∃ out, portCase max u.bytes (p ++ u.pathBytes) u.begun = some out ∧ Right u max out) ↔
      u.Handled max := by
  rw [handled_of_port max port, and_iff_right room]
  by_cases short : p.length < 65536
  swap
  · rw [portCase_long max port _ short]
    refine iff_of_false ?_ fun handled => short handled.1
    rintro ⟨out, absent, -⟩
    cases absent
  rw [portCase_eq max port _ short, and_iff_right short]
  cases number : atoi p 256 with
  | none =>
      have refused : Right u max { u.begun with ret := nbrEformat } ↔ _ := right_refused_iff rfl nbrEformat_neg
      rw [and_iff_right room] at refused
      simp only [Option.elim_none, Option.some.injEq, exists_eq_left', refused, true_or, and_true]
      refine ⟨.inr, ?_⟩
      rintro (⟨value, -, -, -, few⟩ | absent)
      · obtain ⟨v, value⟩ := Option.ne_none_iff_exists'.mp value
        obtain ⟨i, read, -⟩ := atoi_value port value few
        rw [number] at read
        cases read
      · exact absent
  | some i =>
      have few : p.length < 256 := by
        by_contra many
        rw [(atoi_none_iff (u.portPlain p port)).mpr (.inr (Nat.le_of_not_lt many))] at number
        cases number
      have kept : u.portValue ≠ none → some (i % 2 ^ 16).toNat = u.portValue := by
        intro value
        obtain ⟨v, value⟩ := Option.ne_none_iff_exists'.mp value
        obtain ⟨j, read, same⟩ := atoi_value port value few
        rw [number] at read
        rw [Option.some.inj read, same, value]
      simp only [Option.elim_some, reduceCtorEq, false_or, few, and_true]
      split
      · -- the path is absent, and nothing is written where it should be
        rename_i absent
        have none := (u.pathBytes_eq_nil_iff).mp absent
        simp only [none, ne_eq, not_true_eq_false, false_and, and_false, or_self, iff_false]
        rintro ⟨out, same, right⟩
        obtain rfl := Option.some.inj same
        exact not_holds_nil _ (right.taken (right.fits rfl)).2.2.2
      · rename_i present
        have path : u.path ≠ none := fun none => present ((u.pathBytes_eq_nil_iff).mpr none)
        rw [and_iff_right path, and_iff_right path]
        have passed : Right u max (pathCase max u.bytes u.pathBytes
            { u.begun with port := some (i % 2 ^ 16).toNat }) ↔ _ := right_pathCase_iff rfl kept
        rw [and_iff_right room] at passed
        split
        · rename_i long
          have refused : Right u max
              { u.begun with port := some (i % 2 ^ 16).toNat, ret := nbrEformat } ↔ _ :=
            right_refused_iff rfl nbrEformat_neg
          have long : max < u.bytes.length := by omega
          rw [and_iff_right room] at refused
          simp only [Option.some.injEq, exists_eq_left', refused, long, and_true]
          refine ⟨.inr, ?_⟩
          rintro (⟨-, -, short⟩ | value)
          · exact absurd long (Nat.not_lt_of_le short)
          · exact value
        · simp only [Option.some.injEq, exists_eq_left', passed]

/-- A URL comes out right exactly if it is of one of these kinds. -/
theorem parseUrl_right_iff (u : Url) (max : ℕ) :
    (∃ out, parseUrl max u.bytes = some out ∧ Right u max out) ↔ u.Handled max := by
  cases port : u.port with
  | none =>
      rw [handled_of_port_none max port]
      by_cases path : u.path = none
      · rw [parseUrl_host max port path]
        refine iff_of_false ?_ fun handled => handled.2.1 path
        rintro ⟨out, same, right⟩
        obtain rfl := Option.some.inj same
        exact not_right_host u max right
      · have value := portValue_none port
        have passed : Right u max (pathCase max u.bytes u.pathBytes u.begun) ↔ _ :=
          right_pathCase_iff rfl fun _ => value.symm
        rw [parseUrl_path max port path, and_iff_right path]
        simp only [Option.some.injEq, exists_eq_left']
        split
        · rename_i long
          refine iff_of_false (fun right => ?_) fun handled => absurd handled.1 (by omega)
          have room : u.host.length < max := (room_iff rfl).mp right.room
          omega
        · rw [passed, value]
          simp
  | some p =>
      rw [parseUrl_port max port]
      split
      · rename_i long
        refine iff_of_false ?_ fun handled => absurd handled.1 (by omega)
        rintro ⟨out, same, right⟩
        obtain rfl := Option.some.inj same
        have room : u.host.length < max := (room_iff rfl).mp right.room
        omega
      · rename_i fits
        exact right_portCase_iff port (Nat.lt_of_succ_le (Nat.le_of_not_lt fits))

/-- `h` -/
def bareHost : Url := ⟨[104], none, none, by simp, by simp, by simp, by simp, by simp⟩

/-- `h:70000/` -/
def largePort : Url where
  host := [104]
  port := some [55, 48, 48, 48, 48]
  path := some []
  hostNonempty := by simp
  hostPlain := by simp
  portNonempty := by simp
  portPlain := by simp
  pathPlain := by simp

/-- A bare host is not ended, and has no path; a port that is too large becomes another one. -/
theorem bareHost_open :
    parseUrl 1024 bareHost.bytes = some ⟨nbrOk, [104], some 80, []⟩ ∧
    ¬ Right bareHost 1024 ⟨nbrOk, [104], some 80, []⟩ ∧
    parseUrl 1024 largePort.bytes = some ⟨nbrOk, [104, 0], some 4464, [47, 0]⟩ ∧
    ¬ Right largePort 1024 ⟨nbrOk, [104, 0], some 4464, [47, 0]⟩ := by
  refine ⟨by decide +kernel, not_right_host bareHost 1024, by decide +kernel, fun right => ?_⟩
  exact (right.fits rfl).2 (by decide +kernel)

end Url

end Cyue.Http
