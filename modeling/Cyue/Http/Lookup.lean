import Mathlib.Data.List.DropRight
import Mathlib.Data.List.TakeWhile
import Cyue.Http.Chunked

/-!
# Header lookup

`hdrstr` stops at the first line that begins with the key.  The request line is the first
of the lines, and the name of a header may be longer than the key; the text behind the key
is then taken for the value.
-/

namespace Cyue.Http

/-! ## Headers -/

/-- The name of a header stands in front of a colon, and spaces may stand between them. -/
def Line.name (l : Line) : Option (List UInt8) :=
  if 58 ∈ l.text then some ((l.text.takeWhile fun c => c ≠ 58).rdropWhile fun c => c = 32)
  else none

def Line.value (l : Line) : List UInt8 :=
  (l.text.dropWhile fun c => c ≠ 58).tail.dropWhile fun c => c = 32

/-- The name of the header is the key, up to the case of the letters. -/
def Line.Names (key : List UInt8) (l : Line) : Bool :=
  l.name.any fun name => name.map tolower = key.map tolower

def field (headers : List Line) (key : List UInt8) : Option (List UInt8) :=
  (headers.find? (Line.Names key)).map Line.value

/-- What a line reads behind a key, without spaces and colons, up to a terminator. -/
def Line.behind (key : List UInt8) (l : Line) : List UInt8 :=
  ((l.text.drop key.length).dropWhile fun c => c = 32 || c = 58).takeWhile fun c => c ≠ 0

def firstNamed (lines : List Line) (key : List UInt8) : Option Line :=
  lines.find? fun l => Named key l.text

/-- The first line that begins with the key is the first header with this name, and its value has
no colon in front and no terminator inside; or it is another line, which by chance reads behind the
key as the value of that header. -/
def Unambiguous (request : Line) (headers : List Line) (key : List UInt8) : Prop :=
  ∀ line, firstNamed (request :: headers) key = some line →
    (headers.find? (Line.Names key) = some line ∧ line.value.head? ≠ some 58 ∧ 0 ∉ line.value) ∨
    (headers.find? (Line.Names key) ≠ some line ∧ field headers key = some (line.behind key))

namespace Fsm

/-! ## What `hdrstr` writes -/

/-- The bytes that the last loop of `hdrstr` puts behind the first `n` of `b`. -/
def copied (l : ℕ) : ℕ → List UInt8 → List UInt8
  | _, [] => [0]
  | n, c :: p =>
      if c = 0 then [0]
      else if l ≤ n + 1 then [c]
      else c :: copied l (n + 1) p

/-- The loop of `hdrstr` with the bytes that it leaves in `b`. -/
def writtenIn (f : Fsm) (key : List UInt8) (l : ℕ) : List ℕ → List UInt8
  | [] => []
  | i :: rest =>
      match matchKey (f.hl i) 0 key (f.stringAt (f.hd i)) with
      | .differs => f.writtenIn key l rest
      | .tooLong => []
      | .found p => copied l 0 (p.dropWhile fun c => c = 32 || c = 58)

def written (f : Fsm) (key : List UInt8) (l : ℕ) : List UInt8 :=
  f.writtenIn key l (List.range f.nHd)

/-- A value that leaves room for its terminator is given, and nothing without such a header. -/
def Exact (f : Fsm) (headers : List Line) (key : List UInt8) (l : ℕ) : Prop :=
  f.hdrstr key l = (field headers key).filter (fun value => value.length < l) ∧
    (f.written key l).length ≤ l ∧
    ∀ value, f.hdrstr key l = some value → f.written key l = value ++ [0]

theorem copied_length_le {l n : ℕ} (p : List UInt8) (lt : n < l) : n + (copied l n p).length ≤ l := by
  induction p generalizing n with
  | nil => exact lt
  | cons c p ih =>
      unfold copied
      split
      · exact lt
      · split
        · exact lt
        · rename_i room
          have rest := ih (not_le.mp room)
          rw [List.length_cons]
          omega

theorem copied_whole {l n : ℕ} {p : List UInt8}
    (fits : n + (p.takeWhile fun c => c ≠ 0).length < l) :
    copied l n p = (p.takeWhile fun c => c ≠ 0) ++ [0] := by
  induction p generalizing n with
  | nil => rfl
  | cons c p ih =>
      by_cases zero : c = 0
      · subst zero
        rfl
      · have more : ((c :: p).takeWhile fun c => c ≠ 0) = c :: p.takeWhile fun c => c ≠ 0 :=
          List.takeWhile_cons_of_pos (decide_eq_true zero)
        rw [more, List.length_cons] at fits
        unfold copied
        rw [if_neg zero, if_neg (by omega), ih (by omega), more]
        rfl

/-! ## The line that is found -/

theorem skipped_text (x rest : List UInt8) :
    (((x ++ 0 :: rest).dropWhile fun c => c = 32 || c = 58).takeWhile fun c => c ≠ 0) =
      (x.dropWhile fun c => c = 32 || c = 58).takeWhile fun c => c ≠ 0 := by
  have stops (y : List UInt8) :
      ((y ++ 0 :: rest).takeWhile fun c => c ≠ 0) = y.takeWhile fun c => c ≠ 0 := by
    induction y with
    | nil => rfl
    | cons c y ih =>
        rw [List.cons_append, List.takeWhile_cons, List.takeWhile_cons, ih]
  induction x with
  | nil => rfl
  | cons c x ih =>
      rw [List.cons_append, List.dropWhile_cons, List.dropWhile_cons]
      split
      · exact ih
      · exact stops (c :: x)

theorem Named.length_le {key text : List UInt8} (named : Named key text) :
    (text.take key.length).length = key.length := by
  have length := congrArg List.length named
  rw [List.length_map, List.length_map] at length
  exact length

/-- The loops go to the first line that begins with the key. -/
theorem Holds.searched {f : Fsm} {lines before after : List Line} (holds : Holds f lines)
    {key : List UInt8} (plain : (0 : UInt8) ∉ key) (l : ℕ) (split : lines = before ++ after) :
    (firstNamed after key = none ∧
      f.hdrstrIn key l (List.range' before.length after.length) = none ∧
      f.writtenIn key l (List.range' before.length after.length) = []) ∨
    ∃ line rest, firstNamed after key = some line ∧
      f.hdrstrIn key l (List.range' before.length after.length) =
        value l (line.text.drop key.length ++ 0 :: rest) ∧
      f.writtenIn key l (List.range' before.length after.length) =
        copied l 0 ((line.text.drop key.length ++ 0 :: rest).dropWhile fun c => c = 32 || c = 58) := by
  induction after generalizing before with
  | nil => exact .inl ⟨rfl, rfl, rfl⟩
  | cons line after ih =>
      have at' : lines[before.length]? = some line := by
        rw [split, List.getElem?_append_right le_rfl, Nat.sub_self]
        rfl
      obtain ⟨length, rest, text⟩ := holds.texts _ _ at'
      rw [List.length_cons, List.range'_succ, hdrstrIn, writtenIn]
      by_cases named : Named key line.text
      · have first : firstNamed (line :: after) key = some line :=
          List.find?_cons_of_pos (decide_eq_true named)
        have matched : matchKey (f.hl before.length) 0 key (f.stringAt (f.hd before.length)) =
            .found (line.text.drop key.length ++ 0 :: rest) := by
          rw [stringAt, text]
          conv_lhs => rw [← List.take_append_drop key.length line.text, List.append_assoc]
          apply matchKey_found named
          rw [length, Nat.zero_add, List.length_take]
          exact Nat.min_le_right _ _
        rw [matched]
        exact .inr ⟨line, rest, first, rfl, rfl⟩
      · have later : firstNamed (line :: after) key = firstNamed after key :=
          List.find?_cons_of_neg (by rw [decide_eq_true_eq]; exact named)
        have differs : matchKey (f.hl before.length) 0 key (f.stringAt (f.hd before.length)) =
            .differs := by
          rw [stringAt, text]
          exact matchKey_differs plain named (by rw [length, Nat.zero_add])
        have joined : lines = (before ++ [line]) ++ after := by
          rw [split, List.append_assoc]
          rfl
        have next := ih joined
        rw [List.length_append] at next
        rw [differs, later]
        exact next

theorem Holds.hdrstr_eq {f : Fsm} {lines : List Line} (holds : Holds f lines) {key : List UInt8}
    (plain : (0 : UInt8) ∉ key) {l : ℕ} (positive : 0 < l) :
    f.hdrstr key l = ((firstNamed lines key).map (Line.behind key)).filter (fun v => v.length < l) ∧
      (f.written key l).length ≤ l ∧
      ∀ v, f.hdrstr key l = some v → f.written key l = v ++ [0] := by
  have range : List.range f.nHd = List.range' 0 lines.length := by
    rw [holds.count, List.range_eq_range']
  unfold hdrstr written
  rw [range]
  obtain ⟨none, result, bytes⟩ | ⟨line, rest, first, result, bytes⟩ :=
    holds.searched plain l (List.nil_append lines).symm
  · change f.hdrstrIn key l (List.range' 0 lines.length) = _ at result
    change f.writtenIn key l (List.range' 0 lines.length) = _ at bytes
    rw [none, result, bytes]
    exact ⟨rfl, Nat.zero_le l, nofun⟩
  · change f.hdrstrIn key l (List.range' 0 lines.length) = _ at result
    change f.writtenIn key l (List.range' 0 lines.length) = _ at bytes
    rw [first, result, bytes]
    have text := skipped_text (line.text.drop key.length) rest
    have length := copied_length_le
      ((line.text.drop key.length ++ 0 :: rest).dropWhile fun c => c = 32 || c = 58) positive
    rw [Nat.zero_add] at length
    have given : value l (line.text.drop key.length ++ 0 :: rest) =
        (some (line.behind key)).filter (fun v => v.length < l) := by
      unfold value
      dsimp only
      rw [text, Option.filter_some]
      change (if l ≤ (line.behind key).length then _ else some (line.behind key)) = _
      split
      · rename_i long
        rw [if_neg (by simpa using long)]
      · rename_i short
        rw [if_pos (by simpa using short)]
    refine ⟨given, length, fun v found => ?_⟩
    rw [given, Option.filter_some] at found
    split at found
    · rename_i short
      obtain rfl := Option.some.inj found
      have whole : line.behind key = _ := text.symm
      rw [whole] at short ⊢
      exact copied_whole (by simpa using short)
    · exact nomatch found

end Fsm

/-! ## The header that is meant -/

theorem eq_of_mem_takeWhile {c d : UInt8} {p : List UInt8} (mem : c ∈ p.takeWhile fun c => c = d) :
    c = d := by
  have kept := List.mem_takeWhile_imp mem
  exact of_decide_eq_true kept

theorem rdropWhile_spaces (p : List UInt8) :
    ∃ spaces, p = (p.rdropWhile fun c => c = 32) ++ spaces ∧ ∀ c ∈ spaces, c = 32 := by
  refine ⟨(p.reverse.takeWhile fun c => c = 32).reverse, ?_, ?_⟩
  · rw [List.rdropWhile, ← List.reverse_append, List.takeWhile_append_dropWhile,
      List.reverse_reverse]
  · intro c mem
    exact eq_of_mem_takeWhile (List.mem_reverse.mp mem)

/-- A header with the name reads the key, spaces and a colon, and then spaces and the value. -/
theorem Line.Names.text_eq {key : List UInt8} {l : Line} (names : l.Names key) :
    Named key l.text ∧ ∃ skip, l.text.drop key.length = skip ++ l.value ∧
      ∀ c ∈ skip, c = 32 ∨ c = 58 := by
  unfold Line.Names Line.name at names
  split at names
  · rename_i colon
    have same := of_decide_eq_true names
    obtain ⟨spaces, tag, blank⟩ := rdropWhile_spaces (l.text.takeWhile fun c => c ≠ 58)
    obtain ⟨more, rest, blank'⟩ : ∃ more, (l.text.dropWhile fun c => c ≠ 58).tail = more ++ l.value ∧
        ∀ c ∈ more, c = 32 := by
      refine ⟨_, List.takeWhile_append_dropWhile.symm, fun c mem => ?_⟩
      exact eq_of_mem_takeWhile mem
    have some : (l.text.dropWhile fun c => c ≠ 58) ≠ [] := by
      rw [ne_eq, List.dropWhile_eq_nil_iff]
      intro all
      exact absurd rfl (of_decide_eq_true (all 58 colon))
    have begins : (l.text.dropWhile fun c => c ≠ 58).head some = 58 := by
      have stop := List.head_dropWhile_not (fun c => decide (c ≠ 58)) some
      exact not_not.mp (of_decide_eq_false stop)
    have text : l.text = ((l.text.takeWhile fun c => c ≠ 58).rdropWhile fun c => c = 32) ++
        ((spaces ++ 58 :: more) ++ l.value) := by
      have behind := List.cons_head_tail some
      rw [begins, rest] at behind
      have joined : ((l.text.takeWhile fun c => c ≠ 58).rdropWhile fun c => c = 32) ++
          ((spaces ++ 58 :: more) ++ l.value) =
            (((l.text.takeWhile fun c => c ≠ 58).rdropWhile fun c => c = 32) ++ spaces) ++
              (58 :: (more ++ l.value)) := by
        rw [List.append_assoc, List.append_assoc, List.cons_append]
      rw [joined, ← tag, behind, List.takeWhile_append_dropWhile]
    have length := congrArg List.length same
    rw [List.length_map, List.length_map] at length
    constructor
    · unfold Named
      rw [text, ← length, List.take_left]
      exact same
    · refine ⟨spaces ++ 58 :: more, ?_, ?_⟩
      · conv_lhs => rw [text, ← length, List.drop_left]
      · intro c mem
        rcases List.mem_append.mp mem with mem | mem
        · exact .inl (blank c mem)
        · rcases List.mem_cons.mp mem with rfl | mem
          · exact .inr rfl
          · exact .inl (blank' c mem)
  · exact nomatch names

theorem Line.value_head (l : Line) : l.value.head? ≠ some 32 := by
  unfold Line.value
  intro space
  cases text : (l.text.dropWhile fun c => c ≠ 58).tail.dropWhile fun c => c = 32 with
  | nil => exact nomatch text ▸ space
  | cons c rest =>
      have stop := List.head_dropWhile_not (fun c => decide (c = 32))
        (text.symm ▸ List.cons_ne_nil c rest)
      have other := of_decide_eq_false stop
      rw [text] at space
      simp only [text, List.head_cons] at other
      exact other (Option.some.inj space)

theorem Line.behind_eq_value_iff {key : List UInt8} {l : Line} (names : l.Names key) :
    l.behind key = l.value ↔ l.value.head? ≠ some 58 ∧ 0 ∉ l.value := by
  obtain ⟨_, skip, text, blank⟩ := Line.Names.text_eq names
  have behind : l.behind key =
      (l.value.dropWhile fun c => c = 32 || c = 58).takeWhile fun c => c ≠ 0 := by
    unfold Line.behind
    rw [text, List.dropWhile_append_of_pos]
    intro c mem
    rcases blank c mem with rfl | rfl <;> rfl
  rw [behind]
  constructor
  · intro same
    have all : ∀ c ∈ l.value, c ≠ 0 := by
      intro c mem
      rw [← same] at mem
      have kept := List.mem_takeWhile_imp mem
      exact of_decide_eq_true kept
    refine ⟨fun colon => ?_, fun zero => all 0 zero rfl⟩
    cases value : l.value with
    | nil => exact nomatch value ▸ colon
    | cons c rest =>
        rw [value] at same colon
        obtain rfl := Option.some.inj colon
        have length := congrArg List.length same
        have cut := (List.takeWhile_prefix (p := fun c => decide (c ≠ 0))
          (l := (58 :: rest).dropWhile fun c => c = 32 || c = 58)).length_le
        have skipped := List.length_dropWhile_le (fun c : UInt8 => c = 32 || c = 58) rest
        have head : ((58 :: rest).dropWhile fun c : UInt8 => c = 32 || c = 58) =
            rest.dropWhile fun c => c = 32 || c = 58 := rfl
        rw [head] at cut length
        rw [List.length_cons] at length
        omega
  · rintro ⟨colon, zero⟩
    have stays : (l.value.dropWhile fun c => c = 32 || c = 58) = l.value := by
      have space := l.value_head
      cases value : l.value with
      | nil => rfl
      | cons c rest =>
          rw [value] at colon space
          have other : ¬ (decide (c = 32) || decide (c = 58)) = true := by
            intro blank
            rcases Bool.or_eq_true _ _ ▸ blank with is | is
            · exact space (congrArg some (of_decide_eq_true is))
            · exact colon (congrArg some (of_decide_eq_true is))
          exact List.dropWhile_cons_of_neg other
    rw [stays, List.takeWhile_eq_self_iff]
    intro c mem
    exact decide_eq_true fun is => zero (is ▸ mem)

/-- The lines are unambiguous when what the first one with the key reads behind it is the value. -/
theorem unambiguous_iff (request : Line) (headers : List Line) (key : List UInt8) :
    Unambiguous request headers key ↔
      (firstNamed (request :: headers) key).map (Line.behind key) = field headers key := by
  unfold Unambiguous field
  cases first : firstNamed (request :: headers) key with
  | none =>
      have nobody : headers.find? (Line.Names key) = none := by
        rw [List.find?_eq_none]
        intro l mem names
        have other := List.find?_eq_none.mp first l (List.mem_cons_of_mem request mem)
        exact other (decide_eq_true (Line.Names.text_eq names).1)
      rw [nobody]
      exact ⟨fun _ => rfl, fun _ => nofun⟩
  | some line =>
      cases found : headers.find? (Line.Names key) with
      | none =>
          constructor
          · intro fair
            rcases fair line rfl with ⟨same, _⟩ | ⟨_, same⟩
            · exact nomatch same
            · exact nomatch same
          · exact nofun
      | some header =>
          have names : header.Names key := List.find?_some found
          constructor
          · intro fair
            rcases fair line rfl with ⟨same, colon, zero⟩ | ⟨_, same⟩
            · obtain rfl := Option.some.inj same
              exact congrArg some ((Line.behind_eq_value_iff names).mpr ⟨colon, zero⟩)
            · exact same.symm
          · intro same l eq
            obtain rfl := Option.some.inj eq
            by_cases self : header = line
            · subst self
              have value := Option.some.inj same
              exact .inl ⟨rfl, (Line.behind_eq_value_iff names).mp value⟩
            · exact .inr ⟨fun eq => self (Option.some.inj eq), same.symm⟩

namespace Fsm

/-- The lookup of a key is exact, whatever room there is for the value, when the lines are
unambiguous for it. -/
theorem header_lookup_exact_iff {f : Fsm} {request : Line} {headers : List Line}
    (holds : Holds f (request :: headers)) {key : List UInt8} (plain : (0 : UInt8) ∉ key) :
    (∀ l, 0 < l → f.Exact headers key l) ↔ Unambiguous request headers key := by
  rw [unambiguous_iff]
  constructor
  · intro exact
    -- room for both texts
    let size (v : Option (List UInt8)) : ℕ := (v.map List.length).getD 0
    let found := (firstNamed (request :: headers) key).map (Line.behind key)
    have all (v : Option (List UInt8)) {l : ℕ} (room : size v < l) :
        v.filter (fun v => v.length < l) = v := by
      cases v with
      | none => rfl
      | some v =>
          rw [Option.filter_some]
          exact if_pos (decide_eq_true room)
    have room : 0 < size found + size (field headers key) + 1 := Nat.succ_pos _
    have result := (exact _ room).1
    rw [(holds.hdrstr_eq plain room).1, all (field headers key) (by omega),
      all found (by omega)] at result
    exact result
  · intro same l positive
    obtain ⟨result, length, bytes⟩ := holds.hdrstr_eq plain positive
    rw [same] at result
    exact ⟨result, length, bytes⟩

/-! ## Lines that were received -/

theorem Holds.kept {f : Fsm} {lines : List Line} (holds : Holds f lines) : Holds f.headerEnd lines := by
  obtain ⟨version, res, same⟩ := f.putrc_eq
  unfold Fsm.headerEnd
  dsimp only
  rw [same]
  repeat' split
  all_goals exact ⟨holds.count, holds.texts⟩

/-- The receiver holds the lines of a header block that it has read. -/
theorem holds_received (f : Fsm) {chunkSize : ℕ} (promised : chunkSize ≤ 65536) {lines : List Line}
    (few : lines.length ≤ maxHeader) (some : lines ≠ []) (crlf : Bool)
    (fits : (lines.flatMap Line.bytes ++ ending crlf).length < chunkSize) :
    Holds ((f.reset chunkSize).append (lines.flatMap Line.bytes ++ ending crlf)
      (lines.flatMap Line.bytes ++ ending crlf).length) lines := by
  have room := room_reset f fits (by omega)
  have short : ∀ l ∈ lines, l.text.length < 2 ^ 16 := by
    intro l mem
    have length : l.bytes.length ≤ (lines.flatMap Line.bytes).length := length_le_flatMap mem
    rw [Line.bytes, List.length_append] at length
    rw [List.length_append] at fits
    omega
  rw [List.length_append] at room
  obtain ⟨heads, room, _⟩ := (heads_reset f chunkSize).lines few room short
  rw [append_eq, acceptAll_append, heads.empty (heads.holds.p_ne_nil some) room]
  exact (heads.holds.pushAll (gap crlf)).kept

end Fsm

/-! ## A key that another header begins with -/

def upgradeRequest : Line :=
  ⟨ascii "GET / HTTP/1.1", true, by decide, by decide, nofun⟩

/-- A header that begins with `Upgrade`, and a header `Upgrade`. -/
def upgradeHeaders : List Line :=
  [⟨ascii "Upgrade-Insecure-Requests: 1", true, by decide, by decide, nofun⟩,
    ⟨ascii "Upgrade: websocket", true, by decide, by decide, nofun⟩]

def upgradeBytes : List UInt8 :=
  (upgradeRequest :: upgradeHeaders).flatMap Line.bytes ++ ending true

theorem upgrade_misread :
    ((cleared.reset 512).append upgradeBytes upgradeBytes.length).hdrstr (ascii "Upgrade") 256 =
        some (ascii "-Insecure-Requests: 1") ∧
      field upgradeHeaders (ascii "Upgrade") = some (ascii "websocket") ∧
      ¬ ((cleared.reset 512).append upgradeBytes upgradeBytes.length).Exact upgradeHeaders
        (ascii "Upgrade") 256 := by
  have holds : Fsm.Holds ((cleared.reset 512).append upgradeBytes upgradeBytes.length)
      (upgradeRequest :: upgradeHeaders) :=
    Fsm.holds_received cleared (by decide) (by decide) (List.cons_ne_nil _ _) true (by decide)
  have plain : (0 : UInt8) ∉ ascii "Upgrade" := by decide
  have room : 0 < 256 := by decide
  have misread : ((cleared.reset 512).append upgradeBytes upgradeBytes.length).hdrstr
      (ascii "Upgrade") 256 = some (ascii "-Insecure-Requests: 1") :=
    (holds.hdrstr_eq plain room).1.trans (by decide)
  refine ⟨misread, by decide, fun exact => ?_⟩
  exact absurd (misread.symm.trans exact.1) (by decide)

theorem header_lookup_exact_insecure :
    (∀ l, 0 < l → ((cleared.reset 512).append upgradeBytes upgradeBytes.length).Exact upgradeHeaders
      (ascii "Upgrade-Insecure-Requests") l) ↔
      Unambiguous upgradeRequest upgradeHeaders (ascii "Upgrade-Insecure-Requests") :=
  Fsm.header_lookup_exact_iff
    (Fsm.holds_received cleared (by decide) (by decide) (List.cons_ne_nil _ _) true (by decide))
    (by decide)

end Cyue.Http
