import WireLogic.Proofs.Spelling

/-!
# Spacing and comments

Tokens can be written out with blanks between them and with comments at the ends of lines. Blanks
are needed only where two words would be read as one. Whatever is written that way is read back
token by token, each with the place of its own text, and nothing else can be read. So it makes no
difference to a program how it is spaced.
-/

namespace WireLogic

set_option autoImplicit false

namespace Token

/-- Blanks, and after them nothing or a comment within the line. -/
structure Space where
  gap : List Char
  remark : List Char
  isGap : ∀ c ∈ gap, c ∈ [' ', '\t', '\r', '\x0c']
  isRemark : remark = [] ∨ ∃ text, '\n' ∉ text ∧ remark = '/' :: '/' :: text

def Space.empty : Space := ⟨[], [], by simp, .inl rfl⟩

def Space.text (s : Space) : List Char := s.gap ++ s.remark

/-- A token as it stands in a text. Only a newline can come after a comment. -/
structure Piece where
  space : Space
  token : Token
  spelling : List Char
  newline : space.remark ≠ [] → token = .newline
  spelled : Spelled token spelling

def Piece.text (p : Piece) : List Char := p.space.text ++ p.spelling

/-- The second piece can come right after the first one. -/
def Piece.Apart (p q : Piece) : Prop := p.token.runsOn q.token = true → q.space.gap ≠ []

/-- A way to write tokens out. -/
structure Writing where
  pieces : List Piece
  ending : Space
  apart : pieces.IsChain Piece.Apart

namespace Writing

def empty : Writing := ⟨[], .empty, .nil⟩

def text (w : Writing) : List Char := w.pieces.flatMap Piece.text ++ w.ending.text

def tokens (w : Writing) : List Token := w.pieces.map (·.token)

/-- The tokens of the pieces with their places, if the first piece begins at `start`. -/
def lexemesFrom (start : Nat) : List Piece → List Lexeme
  | [] => []
  | p :: pieces =>
    let first := start + p.space.text.length
    let stop := first + p.spelling.length
    ⟨p.token, first, stop⟩ :: lexemesFrom stop pieces

def lexemes (w : Writing) : List Lexeme := lexemesFrom 0 w.pieces

end Writing

theorem Reads.space {start : Nat} {rest : List Char} {result : Except InvalidText (List Lexeme)}
    (s : Space) (hrest : s.remark ≠ [] → ∀ c ∈ rest.head?, c = '\n')
    (h : Reads (start + s.text.length) rest result) : Reads start (s.text ++ rest) result := by
  obtain ⟨gap, remark, hgap, hremark⟩ := s
  simp only [Space.text] at h ⊢
  induction gap generalizing start with
  | nil =>
    rcases hremark with rfl | ⟨text, htext, rfl⟩
    · exact h
    · apply Reads.comment htext (hrest (List.cons_ne_nil _ _))
      have hlength : start + 2 + text.length = start + ('/' :: '/' :: text).length := by
        rw [List.length_cons, List.length_cons]
        omega
      rwa [hlength]
  | cons c gap ih =>
    obtain ⟨hc, hgap⟩ := List.forall_mem_cons.mp hgap
    apply Reads.blank (isBlank_iff.mpr hc)
    apply ih hgap hrest
    have hlength : start + 1 + (gap ++ remark).length = start + (c :: gap ++ remark).length := by
      rw [List.cons_append, List.length_cons]
      omega
    rwa [hlength]

theorem Space.head?_append (s : Space) {rest : List Char} {c : Char}
    (hc : c ∈ (s.text ++ rest).head?) :
    (isBlank c = true ∨ c = '/') ∨ s.text = [] ∧ c ∈ rest.head? := by
  obtain ⟨gap, remark, hgap, hremark⟩ := s
  simp only [Space.text] at hc ⊢
  cases gap with
  | cons b gap =>
    obtain rfl : b = c := by simpa using hc
    exact .inl (.inl (isBlank_iff.mpr (hgap b List.mem_cons_self)))
  | nil =>
    rcases hremark with rfl | ⟨text, _, rfl⟩
    · exact .inr ⟨rfl, hc⟩
    · obtain rfl : '/' = c := by simpa using hc
      exact .inl (.inr rfl)

theorem Space.not_word {c : Char} (hc : isBlank c = true ∨ c = '/') : isWordChar c = false := by
  rcases hc with hc | rfl
  · exact isWordChar_of_isBlank hc
  · rfl

theorem Piece.head?_spelling (p : Piece) {rest : List Char} {c : Char}
    (hc : c ∈ (p.spelling ++ rest).head?) : p.token.OpensWith c := by
  obtain ⟨d, ds, hds, hopens⟩ := p.spelled.opens
  rw [hds] at hc
  obtain rfl : d = c := by simpa using hc
  exact hopens

theorem Writing.stops_of_apart {p : Piece} {pieces : List Piece} (ending : Space)
    (h : (p :: pieces).IsChain Piece.Apart) :
    p.token.Stops (pieces.flatMap Piece.text ++ ending.text) := by
  intro c hc
  cases pieces with
  | nil =>
    rw [List.flatMap_nil, List.nil_append, ← List.append_nil ending.text] at hc
    rcases ending.head?_append hc with hc | ⟨_, hc⟩
    · exact goesOn_of_not_word (Space.not_word hc) _
    · cases hc
  | cons q pieces =>
    rw [List.flatMap_cons, Piece.text, List.append_assoc, List.append_assoc] at hc
    rcases q.space.head?_append hc with hc | ⟨hempty, hc⟩
    · exact goesOn_of_not_word (Space.not_word hc) _
    · rw [goesOn_eq_runsOn (q.head?_spelling hc)]
      by_contra hruns
      have hgap := (List.isChain_cons_cons.mp h).1 (Bool.not_eq_false _ ▸ hruns)
      exact hgap (List.append_eq_nil_iff.mp hempty).1

theorem Writing.reads_pieces {pieces : List Piece} (ending : Space)
    (h : pieces.IsChain Piece.Apart) (start : Nat) :
    Reads start (pieces.flatMap Piece.text ++ ending.text) (.ok (lexemesFrom start pieces)) := by
  induction pieces generalizing start with
  | nil =>
    rw [List.flatMap_nil, List.nil_append, ← List.append_nil ending.text]
    exact Reads.space ending (fun _ c hc => by cases hc) (reads_nil _)
  | cons p pieces ih =>
    rw [List.flatMap_cons, Piece.text, List.append_assoc, List.append_assoc]
    apply Reads.space p.space
    · intro hremark c hc
      exact (p.head?_spelling hc).newline_iff.mp (p.newline hremark)
    · exact Reads.token p.spelled (stops_of_apart ending h) (ih h.tail _)

theorem Writing.exists_respaced (w : Writing) :
    ∃ (s : Space) (body : List Char), w.text = s.text ++ body ∧
      (s.remark ≠ [] → ∀ c ∈ body.head?, c = '\n') ∧
      ∀ s' : Space, (s'.remark ≠ [] → ∀ c ∈ body.head?, c = '\n') →
        ∃ w' : Writing, w'.text = s'.text ++ body ∧
          ∀ start start', start + s.text.length = start' + s'.text.length →
            lexemesFrom start w.pieces = lexemesFrom start' w'.pieces := by
  obtain ⟨pieces, ending, hapart⟩ := w
  cases pieces with
  | nil =>
    refine ⟨ending, [], by simp [text], by simp, fun s' _ => ?_⟩
    exact ⟨⟨[], s', .nil⟩, by simp [text], fun _ _ _ => rfl⟩
  | cons p pieces =>
    refine ⟨p.space, p.spelling ++ (pieces.flatMap Piece.text ++ ending.text), ?_, ?_, ?_⟩
    · simp [text, Piece.text]
    · intro hremark c hc
      exact (p.head?_spelling hc).newline_iff.mp (p.newline hremark)
    · intro s' hs'
      have hnewline : s'.remark ≠ [] → p.token = .newline := by
        intro hremark
        obtain ⟨d, ds, hds, hopens⟩ := p.spelled.opens
        apply hopens.newline_iff.mpr
        apply hs' hremark
        rw [hds]
        rfl
      obtain ⟨hfirst, hrest⟩ := List.isChain_cons.mp hapart
      refine ⟨⟨⟨s', p.token, p.spelling, hnewline, p.spelled⟩ :: pieces, ending,
        List.isChain_cons.mpr ⟨hfirst, hrest⟩⟩, by simp [text, Piece.text], ?_⟩
      intro start start' hlength
      simp only [lexemesFrom, hlength]

theorem Writing.exists_blank {c : Char} (hc : isBlank c = true) (w : Writing) :
    ∃ w' : Writing, w'.text = c :: w.text ∧
      ∀ start, lexemesFrom start w'.pieces = lexemesFrom (start + 1) w.pieces := by
  obtain ⟨s, body, htext, hbody, hrespaced⟩ := w.exists_respaced
  have hgap : ∀ x ∈ c :: s.gap, x ∈ [' ', '\t', '\r', '\x0c'] :=
    List.forall_mem_cons.mpr ⟨isBlank_iff.mp hc, s.isGap⟩
  obtain ⟨w', htext', hlexemes⟩ := hrespaced ⟨c :: s.gap, s.remark, hgap, s.isRemark⟩ hbody
  refine ⟨w', by rw [htext', htext]; rfl, fun start => (hlexemes _ _ ?_).symm⟩
  simp only [Space.text, List.cons_append, List.length_cons]
  omega

theorem Writing.exists_comment {comment : List Char} (hcomment : '\n' ∉ comment) (w : Writing)
    (hw : ∀ c ∈ w.text.head?, c = '\n') :
    ∃ w' : Writing, w'.text = '/' :: '/' :: (comment ++ w.text) ∧
      ∀ start, lexemesFrom start w'.pieces = lexemesFrom (start + 2 + comment.length) w.pieces := by
  obtain ⟨s, body, htext, _, hrespaced⟩ := w.exists_respaced
  have hempty : s.text = [] := by
    by_contra hne
    obtain ⟨c, cs, hcs⟩ := List.exists_cons_of_ne_nil hne
    have hc : c ∈ (s.text ++ body).head? := by
      rw [hcs]
      rfl
    obtain rfl := hw c (htext ▸ hc)
    rcases s.head?_append hc with (hblank | hslash) | ⟨hempty, _⟩
    · cases hblank
    · cases hslash
    · exact hne hempty
  rw [hempty, List.nil_append] at htext
  obtain ⟨w', htext', hlexemes⟩ := hrespaced ⟨[], '/' :: '/' :: comment, by simp,
    .inr ⟨comment, hcomment, rfl⟩⟩ (fun _ => htext ▸ hw)
  refine ⟨w', by rw [htext', htext]; rfl, fun start => (hlexemes _ _ ?_).symm⟩
  rw [hempty]
  simp only [Space.text, List.nil_append, List.length_nil, List.length_cons]
  omega

theorem Writing.exists_token {t : Token} {spelling : List Char} (hspelled : Spelled t spelling)
    (w : Writing) (hstops : t.Stops w.text) :
    ∃ w' : Writing, w'.text = spelling ++ w.text ∧
      ∀ start, lexemesFrom start w'.pieces =
        ⟨t, start, start + spelling.length⟩ :: lexemesFrom (start + spelling.length) w.pieces := by
  obtain ⟨pieces, ending, hapart⟩ := w
  refine ⟨⟨⟨.empty, t, spelling, absurd rfl, hspelled⟩ :: pieces, ending,
    List.isChain_cons.mpr ⟨?_, hapart⟩⟩, ?_, ?_⟩
  · intro q hq hruns hgap
    obtain ⟨others, rfl⟩ := List.head?_eq_some_iff.mp hq
    have hremark : q.space.remark = [] := by
      by_contra hremark
      rw [q.newline hremark] at hruns
      cases t <;> cases hruns
    obtain ⟨c, cs, hcs, hopens⟩ := q.spelled.opens
    have hgoes := hstops c (by simp [text, Piece.text, Space.text, hgap, hremark, hcs])
    rw [goesOn_eq_runsOn hopens, hruns] at hgoes
    cases hgoes
  · simp [text, Piece.text, Space.text, Space.empty]
  · intro start
    simp [lexemesFrom, Space.text, Space.empty]

theorem head?_dropWhile {p : Char → Bool} {chars : List Char} {c : Char}
    (hc : c ∈ (chars.dropWhile p).head?) : p c = false := by
  have hnot := List.head?_dropWhile_not p chars
  rwa [Option.mem_def.mp hc] at hnot

theorem Writing.exists_longest {t : Token} {c : Char} {rest : List Char} {p : Char → Bool}
    (w : Writing) (hw : w.text = rest.dropWhile p) (hp : t.goesOn = p)
    (hspelled : Spelled t (c :: rest.takeWhile p)) :
    ∃ w' : Writing, w'.text = c :: rest ∧
      ∀ start, lexemesFrom start w'.pieces =
        ⟨t, start, start + (c :: rest.takeWhile p).length⟩ ::
          lexemesFrom (start + (c :: rest.takeWhile p).length) w.pieces := by
  have hstops : t.Stops w.text := by
    intro x hx
    rw [hw] at hx
    rw [hp, head?_dropWhile hx]
  obtain ⟨w', htext, hw'⟩ := w.exists_token hspelled hstops
  refine ⟨w', ?_, hw'⟩
  rw [htext, hw, List.cons_append, List.takeWhile_append_dropWhile]

/-- What has been read is a writing of its tokens. -/
theorem exists_writing {steps start : Nat} {chars : List Char} {lexemes : List Lexeme}
    (hsteps : chars.length ≤ steps) (h : scanFrom steps start chars = .ok lexemes) :
    ∃ w : Writing, w.text = chars ∧ Writing.lexemesFrom start w.pieces = lexemes := by
  fun_induction scanFrom steps start chars generalizing lexemes with
  | case1 start chars =>
    obtain rfl := List.length_eq_zero_iff.mp (Nat.le_zero.mp hsteps)
    cases h
    exact ⟨.empty, rfl, rfl⟩
  | case2 =>
    cases h
    exact ⟨.empty, rfl, rfl⟩
  | case3 steps start c rest hblank ih =>
    obtain ⟨w, rfl, hlexemes⟩ := ih (by simpa using hsteps) h
    obtain ⟨w', htext, hw'⟩ := w.exists_blank hblank
    exact ⟨w', htext, (hw' start).trans hlexemes⟩
  | case4 steps start c rest _ hletter =>
    rename_i word stop ih
    obtain ⟨others, hothers, rfl⟩ := Outcome.map_eq_ok.mp h
    have hlength := (List.dropWhile_suffix isWordChar (l := rest)).length_le
    rw [List.length_cons] at hsteps
    obtain ⟨w, hw, hlexemes⟩ := ih (by omega) hothers
    obtain ⟨w', htext, hw'⟩ := w.exists_longest hw rfl (.of_word hletter)
    exact ⟨w', htext, by rw [hw', ← hlexemes]⟩
  | case5 steps start c rest _ _ hdigit =>
    rename_i digits stop hvalue ih
    obtain ⟨others, hothers, rfl⟩ := Outcome.map_eq_ok.mp h
    have hlength := (List.dropWhile_suffix isDigit (l := rest)).length_le
    rw [List.length_cons] at hsteps
    obtain ⟨w, hw, hlexemes⟩ := ih (by omega) hothers
    obtain ⟨w', htext, hw'⟩ := w.exists_longest hw rfl (.of_digits hdigit hvalue)
    exact ⟨w', htext, by rw [hw', ← hlexemes]⟩
  | case7 steps start c rest _ _ _ t ht ih =>
    obtain ⟨others, hothers, rfl⟩ := Outcome.map_eq_ok.mp h
    obtain ⟨w, rfl, hlexemes⟩ := ih (by simpa using hsteps) hothers
    obtain ⟨w', htext, hw'⟩ := w.exists_token (.of_char ht) fun x _ => goesOn_of_ofChar? ht x
    exact ⟨w', htext, by rw [hw', ← hlexemes]; rfl⟩
  | case8 steps start c _ _ _ comment _ hslash =>
    rename_i skipped ih
    have hlength := (List.dropWhile_suffix (· != '\n') (l := comment)).length_le
    rw [List.length_cons, List.length_cons] at hsteps
    obtain ⟨w, hw, hlexemes⟩ := ih (by omega) h
    have hhead : ∀ x ∈ w.text.head?, x = '\n' := by
      intro x hx
      rw [hw] at hx
      simpa using head?_dropWhile hx
    have hskipped : '\n' ∉ skipped := newline_not_mem_takeWhile (by decide) comment
    obtain ⟨w', htext, hw'⟩ := w.exists_comment hskipped hhead
    refine ⟨w', ?_, (hw' start).trans hlexemes⟩
    rw [htext, hw, beq_iff_eq.mp hslash, List.takeWhile_append_dropWhile]
  | _ => cases h

/-- A text can be read exactly if it is a writing of its tokens. -/
theorem scan_eq_ok_iff {source : List Char} {lexemes : List Lexeme} :
    scan source = .ok lexemes ↔ ∃ w : Writing, w.text = source ∧ w.lexemes = lexemes := by
  constructor
  · exact exists_writing le_rfl
  · rintro ⟨w, rfl, rfl⟩
    exact Writing.reads_pieces w.ending w.apart 0 _ le_rfl

def Spans {α : Type} (source : List α) (start stop : Nat) (text : List α) : Prop :=
  ∃ before after, source = before ++ (text ++ after) ∧ start = before.length ∧
    stop = before.length + text.length

/-- The bytes before a character of the source. -/
def byteOffset (source : List Char) (position : Nat) : Nat := (bytes (source.take position)).length

theorem bytes_append (text rest : List Char) : bytes (text ++ rest) = bytes text ++ bytes rest :=
  List.flatMap_append

theorem Spans.bytes {source text : List Char} {start stop : Nat}
    (h : Spans source start stop text) :
    Spans (bytes source) (byteOffset source start) (byteOffset source stop) (bytes text) := by
  obtain ⟨before, after, rfl, rfl, rfl⟩ := h
  refine ⟨Token.bytes before, Token.bytes after, ?_, ?_, ?_⟩
  · rw [bytes_append, bytes_append]
  · rw [byteOffset, List.take_left]
  · rw [byteOffset, ← List.append_assoc, ← List.length_append, List.take_left, bytes_append,
      List.length_append]

theorem Writing.map_token_lexemesFrom (start : Nat) (pieces : List Piece) :
    (lexemesFrom start pieces).map (·.token) = pieces.map (·.token) := by
  induction pieces generalizing start with
  | nil => rfl
  | cons p pieces ih => simp [lexemesFrom, ih]

theorem Writing.spans_lexemesFrom (before : List Char) (pieces : List Piece) (ending : List Char) :
    List.Forall₂ (fun x p => x.token = p.token ∧
        Spans (before ++ (pieces.flatMap Piece.text ++ ending)) x.start x.stop p.spelling)
      (lexemesFrom before.length pieces) pieces := by
  induction pieces generalizing before with
  | nil => exact .nil
  | cons p pieces ih =>
    have hrest := ih (before ++ p.text)
    rw [List.append_assoc, ← List.append_assoc p.text, ← List.flatMap_cons, List.length_append,
      Piece.text, List.length_append, ← Nat.add_assoc] at hrest
    refine .cons ⟨rfl, before ++ p.space.text, pieces.flatMap Piece.text ++ ending, ?_, ?_, ?_⟩
      hrest
    · simp [Piece.text]
    · rw [List.length_append]
    · rw [List.length_append]

theorem Writing.exists_tokens {ts : List Token} (h : ∀ t ∈ ts, ∃ spelling, Spelled t spelling) :
    ∃ w : Writing, w.tokens = ts := by
  induction ts with
  | nil => exact ⟨.empty, rfl⟩
  | cons t ts ih =>
    obtain ⟨⟨spelling, hspelled⟩, hrest⟩ := List.forall_mem_cons.mp h
    obtain ⟨w, rfl⟩ := ih hrest
    obtain ⟨blank, hblank, hlexemes⟩ := w.exists_blank (show isBlank ' ' = true from rfl)
    have hstops : t.Stops blank.text := by
      rw [hblank]
      intro c hc
      obtain rfl : ' ' = c := by simpa using hc
      exact goesOn_of_not_word rfl t
    obtain ⟨w', _, hlexemes'⟩ := blank.exists_token hspelled hstops
    refine ⟨w', ?_⟩
    have htokens := congrArg (List.map (·.token)) (hlexemes' 0)
    rw [hlexemes, List.map_cons, map_token_lexemesFrom, map_token_lexemesFrom] at htokens
    exact htokens

theorem Writing.scan_text (w : Writing) : scan w.text = .ok w.lexemes :=
  scan_eq_ok_iff.mpr ⟨w, rfl, rfl⟩

theorem Writing.parse_text (w : Writing) :
    Program.parse (String.ofList w.text) = Parse.tokens w.tokens := by
  rw [Program.parse, String.toList_ofList, scan_text]
  exact congrArg Parse.tokens (map_token_lexemesFrom 0 w.pieces)

/-- However tokens are written out, scanning gives them back, each with the place of its own text,
in characters as well as in bytes. Programs are therefore parsed alike whatever their spacing and
their comments. All tokens that can be spelled can be written out, and what is no writing cannot be
scanned. -/
theorem scan_inverts_writing :
    (∀ w : Writing, scan w.text = .ok w.lexemes ∧ w.lexemes.map (·.token) = w.tokens ∧
      List.Forall₂ (fun x p => x.token = p.token ∧ Spans w.text x.start x.stop p.spelling ∧
          Spans (bytes w.text) (byteOffset w.text x.start) (byteOffset w.text x.stop)
            (bytes p.spelling))
        w.lexemes w.pieces) ∧
    (∀ w w' : Writing, w.tokens = w'.tokens →
      Program.parse (String.ofList w.text) = Program.parse (String.ofList w'.text)) ∧
    (∀ ts : List Token, (∀ t ∈ ts, ∃ spelling, Spelled t spelling) → ∃ w : Writing, w.tokens = ts) ∧
    ∀ source lexemes, scan source = .ok lexemes →
      ∃ w : Writing, w.text = source ∧ w.lexemes = lexemes := by
  refine ⟨fun w => ⟨w.scan_text, Writing.map_token_lexemesFrom 0 w.pieces, ?_⟩, fun w w' h => ?_,
    fun _ => Writing.exists_tokens, fun _ _ => scan_eq_ok_iff.mp⟩
  · apply (Writing.spans_lexemesFrom [] w.pieces w.ending.text).imp
    intro x p ⟨htoken, hspans⟩
    exact ⟨htoken, hspans, hspans.bytes⟩
  · rw [w.parse_text, w'.parse_text, h]

/-- Two spacings of the same tokens. In the first one, the comment has a character of two bytes and
the integer is followed by a name. -/
theorem remark_scan_inverts_writing :
    ∃ w w' : Writing, w.text = "a//é\n07b".toList ∧ w'.text = " a\t\r\n 7 b //".toList ∧
      w.tokens = w'.tokens ∧ Program.parse "a//é\n07b" = Program.parse " a\t\r\n 7 b //" ∧
      ∃ p ∈ w.pieces, p.token = .integer 7 ∧ Spans w.text 5 7 p.spelling ∧
        Spans (bytes w.text) 6 8 (bytes p.spelling) := by
  obtain ⟨hinverts, hparse, _, hwriting⟩ := scan_inverts_writing
  have hscan : scan "a//é\n07b".toList = .ok [⟨.identifier "a", 0, 1⟩, ⟨.newline, 4, 5⟩,
      ⟨.integer 7, 5, 7⟩, ⟨.identifier "b", 7, 8⟩] := by
    cbv
  have hscan' : scan " a\t\r\n 7 b //".toList = .ok [⟨.identifier "a", 1, 2⟩, ⟨.newline, 4, 5⟩,
      ⟨.integer 7, 6, 7⟩, ⟨.identifier "b", 8, 9⟩] := by
    cbv
  obtain ⟨w, htext, hlexemes⟩ := hwriting _ _ hscan
  obtain ⟨w', htext', hlexemes'⟩ := hwriting _ _ hscan'
  obtain ⟨_, htokens, hspans⟩ := hinverts w
  obtain ⟨_, htokens', _⟩ := hinverts w'
  have hsame : w.tokens = w'.tokens := by
    rw [← htokens, ← htokens', hlexemes, hlexemes']
    rfl
  have hprograms := hparse w w' hsame
  rw [htext, htext', String.ofList_toList, String.ofList_toList] at hprograms
  refine ⟨w, w', htext, htext', hsame, hprograms, ?_⟩
  rw [hlexemes] at hspans
  simp only [List.forall₂_cons_left_iff] at hspans
  obtain ⟨_, _, _, ⟨_, _, _, ⟨p, _, ⟨htoken, hchars, hbytes⟩, _, rfl⟩, rfl⟩, hpieces⟩ := hspans
  refine ⟨p, by rw [hpieces]; simp, htoken.symm, hchars, ?_⟩
  have hstart : byteOffset w.text 5 = 6 := by
    rw [htext]
    cbv
  have hstop : byteOffset w.text 7 = 8 := by
    rw [htext]
    cbv
  rwa [hstart, hstop] at hbytes

end Token

end WireLogic
