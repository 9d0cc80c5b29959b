/-
  CS5600.Shell.DraftParse — the pipeline parser of the draft shell (`Assignment4_Shell/shell_draft.c`:
  `string_trim`, `parse_line`, `parse_process_command`).

  `parse_line` trims the line (`string_trim` is that of `shell.c`), takes a `&` off its end, and cuts
  it at the bars; each segment is tokenised by `strtok`, its first tokens are the arguments, and
  the redirections behind them are read by an index that steps over file names.

  A well-formed line is a `Pipeline`: segments of words and redirections, spaced in any way, with
  bars between them and a `&` behind them or not. `Parses` is what should come of it.

  Proved (`parse_iff`): it does come of it exactly when no space follows the final `&`, and, if
  there is no final `&`, the last token does not end in one. `string_trim` takes nothing off the
  end, so a space hides the `&`, which is then an argument (`amp_before_space`); and a `&` that
  belongs to the last token is taken off it.
-/

import CS5600.Shell.ShellLoop

namespace CS5600.Shell.Draft

open CS5600.Lib.Words

/-- TOKEN_SIZE -/
def tokenSize : Nat := 80

inductive Command where
  | external
  | exit
  | cd
  | help
  | pwd
  deriving DecidableEq

def commandCharacter (command : Token) : Command :=
  if command = "exit".toList then .exit
  else if command = "cd".toList then .cd
  else if command = "help".toList then .help
  else if command = "pwd".toList then .pwd
  else .external

inductive Mode where
  | background
  | foreground
  | pipeline
  deriving DecidableEq

/-- The `next` pointers are the list a process is in. -/
structure Process where
  command : List Char
  argc : Nat
  /-- the slots of the array that are written -/
  argv : List (Option Token)
  inPath : Option Token
  outPath : Option Token
  pid : Int
  type : Command
  status : Int
  deriving DecidableEq

structure Job where
  id : Int
  root : List Process
  command : List Char
  pgid : Int
  mode : Mode
  deriving DecidableEq

/-! ## `parse_process_command` -/

def isRedirection (token : Token) : Bool := token.head? = some '<' || token.head? = some '>'

structure Paths where
  inPath : Option Token
  outPath : Option Token
  deriving DecidableEq

/-- The loop over the tokens behind the arguments. An operator at the end makes it read the slot
    behind the last token, which nobody has written. -/
def redirections : List Token → Paths → Option Paths
  | [], paths => some paths
  | token :: rest, paths =>
    if token.head? = some '<' then
      if token.length = 1 then
        match rest with
        | [] => none
        | path :: rest => redirections rest { paths with inPath := some path }
      else redirections rest { paths with inPath := some token.tail }
    else if token.head? = some '>' then
      if token.length = 1 then
        match rest with
        | [] => none
        | path :: rest => redirections rest { paths with outPath := some path }
      else redirections rest { paths with outPath := some token.tail }
    else some paths

/-- `none` when it stores past `tokens`, reads a slot it has not written, or compares NULL with the
    names of the builtins. `status` is not set, it stays what `malloc` left there. -/
def parseProcessCommand (status : Int) (segment : List Char) : Option Process :=
  let tokens := words isDelimiter segment
  let args := tokens.takeWhile fun t => !isRedirection t
  if tokens.length < tokenSize then
    match redirections (tokens.drop args.length) ⟨none, none⟩, args with
    | some paths, name :: _ =>
      some ⟨segment, args.length, args.map some ++ List.replicate (tokens.length - args.length + 1) none, paths.inPath,
        paths.outPath, -1, commandCharacter name, status⟩
    | _, _ => none
  else none

/-! ## `parse_line` -/

/-- The loop of `parse_line`: a segment begins at `temp`, `length` characters of it are passed, and
    `character` lies ahead. -/
def segments (temp : List Char) (length : Nat) : List Char → List (List Char)
  | [] => [temp.take length]
  | c :: rest =>
    if c = '|' then
      let temp' := rest.dropWhile (· = ' ')
      temp.take length :: segments temp' 0 temp'
    else segments temp (length + 1) rest
termination_by character => character.length
decreasing_by
  · have := List.length_dropWhile_le (fun c => decide (c = ' ')) rest
    simp only [List.length_cons]
    omega
  · simp

/-- What `malloc` leaves in the fields that are not set. -/
structure Junk where
  id : Int
  status : Nat → Int

def parseSegments (junk : Junk) : Nat → List (List Char) → Option (List Process)
  | _, [] => some []
  | k, segment :: rest => do
    let process ← parseProcessCommand (junk.status k) segment
    let processes ← parseSegments junk (k + 1) rest
    return process :: processes

def makeJob (junk : Junk) (command : List Char) (mode : Mode) (line : List Char) : Option Job :=
  (parseSegments junk 0 (segments line 0 line)).map fun root => ⟨junk.id, root, command, -1, mode⟩

def parseLine (junk : Junk) (line : Line) : Option Job :=
  let (head, buf) := stringTrim line.buf
  let line := cstr (buf.drop head)
  match line.getLast? with
  -- `line[-1]` is a space that was skipped, or lies before the buffer
  | none => if head = 0 then none else makeJob junk line .foreground line
  | some c => if c = '&' then makeJob junk line .background line.dropLast else makeJob junk line .foreground line

/-! ## Well-formed lines -/

def isBlank (c : Char) : Bool := c = ' '

/-- A word or a path. -/
structure IsToken (t : Token) : Prop where
  ne : t ≠ []
  chars : ∀ c ∈ t, isDelimiter c = false ∧ c ≠ '|' ∧ c ≠ nul

/-- `< path` or `> path`, or the two in one token. -/
structure Redirection where
  out : Bool
  glued : Bool
  path : Token

def Redirection.op (r : Redirection) : Char := if r.out then '>' else '<'

def Redirection.tokens (r : Redirection) : List Token := if r.glued then [r.op :: r.path] else [[r.op], r.path]

def tokensOf (args : List Token) (redirs : List Redirection) : List Token :=
  args ++ redirs.flatMap Redirection.tokens

/-- Words and redirections, and a text of them with spaces between and around. -/
structure Segment where
  args : List Token
  redirs : List Redirection
  text : List Char
  nonempty : args ≠ []
  word : ∀ w ∈ args, IsToken w ∧ isRedirection w = false
  path : ∀ r ∈ redirs, IsToken r.path
  few : (tokensOf args redirs).length ≤ 79
  spaced : Spaced isBlank (tokensOf args redirs) text

def Segment.tokens (s : Segment) : List Token := tokensOf s.args s.redirs

def Segment.inPath (s : Segment) : Option Token := (s.redirs.filter (!·.out)).getLast?.map (·.path)

def Segment.outPath (s : Segment) : Option Token := (s.redirs.filter (·.out)).getLast?.map (·.path)

/-- Texts with a bar between each two. -/
def join : List (List Char) → List Char
  | [] => []
  | [x] => x
  | x :: y :: xs => x ++ '|' :: join (y :: xs)

/-- Segments, with a `&` behind them or not; `trailing` spaces follow the `&`. -/
structure Pipeline where
  segs : List Segment
  nonempty : segs ≠ []
  final : Bool
  trailing : Nat

def Pipeline.body (L : Pipeline) : List Char := join (L.segs.map Segment.text)

def Pipeline.text (L : Pipeline) : List Char :=
  L.body ++ if L.final then '&' :: List.replicate L.trailing ' ' else []

def lastNonBlank (s : List Char) : Option Char := (s.reverse.dropWhile isBlank).head?

/-- The process of a segment. -/
structure Reads (s : Segment) (p : Process) : Prop where
  argv : argv p.argv = s.args
  terminated : p.argv[p.argc]? = some none
  argc : p.argc = s.args.length
  inPath : p.inPath = s.inPath
  outPath : p.outPath = s.outPath

/-- The job of a line. -/
structure Parses (L : Pipeline) (job : Job) : Prop where
  processes : List.Forall₂ Reads L.segs job.root
  mode : job.mode = .background ↔ lastNonBlank L.text = some '&'

/-- The last token of the line ends in `&`. -/
def Pipeline.EndsInAmp (L : Pipeline) : Prop :=
  ∃ s t, L.segs.getLast? = some s ∧ s.tokens.getLast? = some t ∧ t.getLast? = some '&'

/-! ## Reading a segment -/

def Redirection.store (paths : Paths) (r : Redirection) : Paths :=
  if r.out then { paths with outPath := some r.path } else { paths with inPath := some r.path }

theorem redirections_cons (r : Redirection) (hr : r.path ≠ []) (rest : List Token) (paths : Paths) :
    redirections (r.tokens ++ rest) paths = redirections rest (Redirection.store paths r) := by
  obtain ⟨out, glued, path⟩ := r
  obtain ⟨c, cs, rfl⟩ := List.exists_cons_of_ne_nil hr
  cases out <;> cases glued <;> rw [redirections.eq_def] <;>
    simp [Redirection.tokens, Redirection.op, Redirection.store]

theorem redirections_append (rs : List Redirection) (hrs : ∀ r ∈ rs, r.path ≠ []) (rest : List Token) (paths : Paths) :
    redirections (rs.flatMap Redirection.tokens ++ rest) paths =
      redirections rest (rs.foldl Redirection.store paths) := by
  induction rs generalizing paths with
  | nil => rfl
  | cons r rs ih =>
    obtain ⟨hr, hrs⟩ := List.forall_mem_cons.mp hrs
    rw [List.flatMap_cons, List.append_assoc, redirections_cons r hr, ih hrs, List.foldl_cons]

theorem foldl_store (rs : List Redirection) :
    rs.foldl Redirection.store ⟨none, none⟩ =
      ⟨(rs.filter (!·.out)).getLast?.map (·.path), (rs.filter (·.out)).getLast?.map (·.path)⟩ := by
  induction rs using List.reverseRecOn with
  | nil => rfl
  | append_singleton rs r ih =>
    rw [List.foldl_append, ih, List.foldl_cons, List.foldl_nil]
    cases h : r.out <;> simp [Redirection.store, h]

/-- The process `parse_process_command` makes of `tokens` with the first `argc` as arguments. -/
def processOf (status : Int) (segment : List Char) (args : List Token) (nulls : Nat) (paths : Paths) (name : Token) :
    Process :=
  ⟨segment, args.length, args.map some ++ List.replicate (nulls + 1) none, paths.inPath, paths.outPath, -1,
    commandCharacter name, status⟩

theorem isRedirection_tokens (r : Redirection) : ∃ t ts, r.tokens = t :: ts ∧ isRedirection t = true := by
  obtain ⟨out, glued, path⟩ := r
  cases out <;> cases glued <;> exact ⟨_, _, rfl, rfl⟩

/-- `rest` is what stands behind the arguments and some whole redirections. -/
theorem parseProcessCommand_eq (status : Int) {segment : List Char} {name : Token} {args rest : List Token}
    {rs : List Redirection} (htokens : words isDelimiter segment = name :: args ++ (rs.flatMap Redirection.tokens ++ rest))
    (hargs : ∀ w ∈ name :: args, isRedirection w = false) (hrs : ∀ r ∈ rs, r.path ≠ [])
    (hrest : ∀ t ∈ rest.head?, isRedirection t = true) (hfew : (words isDelimiter segment).length ≤ 79) :
    parseProcessCommand status segment =
      (redirections rest (rs.foldl Redirection.store ⟨none, none⟩)).map
        fun paths => processOf status segment (name :: args) (rs.flatMap Redirection.tokens ++ rest).length paths name := by
  have htake : (name :: args ++ (rs.flatMap Redirection.tokens ++ rest)).takeWhile (fun t => !isRedirection t) =
      name :: args := by
    rw [List.takeWhile_append_of_pos fun w hw => by rw [hargs w hw]; rfl]
    have hnone : (rs.flatMap Redirection.tokens ++ rest).takeWhile (fun t => !isRedirection t) = [] := by
      cases rs with
      | nil =>
        cases rest with
        | nil => rfl
        | cons t rest => simp [hrest t rfl]
      | cons r rs =>
        obtain ⟨t, ts, ht, hred⟩ := isRedirection_tokens r
        rw [List.flatMap_cons, ht]
        simp [hred]
    rw [hnone, List.append_nil]
  have hlen : (words isDelimiter segment).length < tokenSize := by rw [tokenSize]; omega
  have hnulls : (name :: args ++ (rs.flatMap Redirection.tokens ++ rest)).length - (name :: args).length + 1 =
      (rs.flatMap Redirection.tokens ++ rest).length + 1 := by
    rw [List.length_append]
    omega
  unfold parseProcessCommand
  simp only [hlen, if_true]
  rw [htokens, htake, List.drop_left, redirections_append rs hrs, hnulls]
  cases redirections rest (rs.foldl Redirection.store ⟨none, none⟩) <;> rfl

theorem argv_map (args : List Token) (n : Nat) : argv (args.map some ++ List.replicate (n + 1) none) = args := by
  rw [argv, List.takeWhile_append_of_pos (by simp), List.replicate_succ]
  simp

/-! ## The text of a segment -/

theorem isToken_redirection {r : Redirection} (h : IsToken r.path) : ∀ t ∈ r.tokens, IsToken t := by
  have hop : isDelimiter r.op = false ∧ r.op ≠ '|' ∧ r.op ≠ nul := by
    unfold Redirection.op
    split <;> decide
  intro t ht
  unfold Redirection.tokens at ht
  split at ht
  · rw [List.mem_singleton.mp ht]
    exact ⟨List.cons_ne_nil _ _, List.forall_mem_cons.mpr ⟨hop, h.chars⟩⟩
  · rcases List.mem_pair.mp ht with rfl | rfl
    · exact ⟨List.cons_ne_nil _ _, List.forall_mem_singleton.mpr hop⟩
    · exact h

theorem Segment.token (s : Segment) : ∀ t ∈ s.tokens, IsToken t := by
  intro t ht
  rcases List.mem_append.mp ht with ht | ht
  · exact (s.word t ht).1
  · obtain ⟨r, hr, ht⟩ := List.mem_flatMap.mp ht
    exact isToken_redirection (s.path r hr) t ht

theorem Segment.char (s : Segment) : ∀ c ∈ s.text, isDelimiter c = isBlank c ∧ c ≠ '|' ∧ c ≠ nul := by
  intro c hc
  rcases s.spaced.mem c hc with hb | ⟨t, ht, hct⟩
  · have e : c = ' ' := of_decide_eq_true hb
    rw [e]
    decide
  · obtain ⟨hd, hbar, hnul⟩ := (s.token t ht).chars c hct
    have hb : isBlank c = false := by
      refine decide_eq_false fun e => ?_
      rw [e] at hd
      cases hd
    exact ⟨hd.trans hb.symm, hbar, hnul⟩

theorem Segment.words_text (s : Segment) : words isDelimiter s.text = s.tokens :=
  (words_congr fun c hc => (s.char c hc).1).trans s.spaced.words

theorem words_skip (x : List Char) : words isDelimiter (x.dropWhile isBlank) = words isDelimiter x := by
  apply words_dropWhile
  intro c hc
  rw [of_decide_eq_true hc]
  decide

/-- The process made of a segment's own text. -/
theorem Segment.reads (s : Segment) (status : Int) :
    ∃ p, parseProcessCommand status (s.text.dropWhile isBlank) = some p ∧ Reads s p := by
  obtain ⟨name, args, hw⟩ := List.exists_cons_of_ne_nil s.nonempty
  have htokens : words isDelimiter (s.text.dropWhile isBlank) =
      name :: args ++ (s.redirs.flatMap Redirection.tokens ++ []) := by
    rw [words_skip, s.words_text, List.append_nil, ← hw]
    rfl
  have hfew : (words isDelimiter (s.text.dropWhile isBlank)).length ≤ 79 := by
    rw [words_skip, s.words_text]
    exact s.few
  have h := parseProcessCommand_eq status htokens (fun w hm => (s.word w (hw ▸ hm)).2) (fun r hr => (s.path r hr).ne)
    (fun t ht => by cases ht) hfew
  rw [redirections, foldl_store] at h
  refine ⟨_, h, ?_, ?_, by rw [hw]; rfl, rfl, rfl⟩
  · rw [hw]
    exact argv_map ..
  · simp [processOf]

/-- Without redirections all tokens are arguments. -/
theorem argv_plain {status : Int} {segment : List Char} {p : Process}
    (hall : ∀ w ∈ words isDelimiter segment, isRedirection w = false) (hfew : (words isDelimiter segment).length ≤ 79)
    (hp : parseProcessCommand status segment = some p) : argv p.argv = words isDelimiter segment := by
  cases htokens : words isDelimiter segment with
  | nil =>
    unfold parseProcessCommand at hp
    simp [htokens] at hp
  | cons name args =>
    have hsplit : words isDelimiter segment =
        name :: args ++ (([] : List Redirection).flatMap Redirection.tokens ++ []) := by simpa using htokens
    have h := parseProcessCommand_eq status hsplit (by rwa [← htokens]) (by simp) (by simp) hfew
    rw [hp] at h
    cases h
    exact argv_map ..

/-- What is left of the last redirection when its last character, a `&`, is taken away. -/
theorem redirection_cut {r : Redirection} {front ts us : List Token} {t : Token} (h : front ++ r.tokens = ts ++ [t])
    (hus : (t = ['&'] ∧ us = ts) ∨ ∃ w, w ≠ [] ∧ t = w ++ ['&'] ∧ us = ts ++ [w]) :
    us = front ++ [[r.op]] ∨ ∃ v, v ≠ [] ∧ r.path = v ++ ['&'] ∧ us = front ++ { r with path := v }.tokens := by
  have hop : r.op ≠ '&' := by
    unfold Redirection.op
    split <;> decide
  obtain ⟨out, glued, path⟩ := r
  cases glued with
  | true =>
    obtain ⟨rfl, ht⟩ := List.append_inj' (show front ++ [_ :: path] = ts ++ [t] from h) rfl
    have ht := List.singleton_inj.mp ht
    rcases hus with ⟨rfl, -⟩ | ⟨w, hw, rfl, rfl⟩
    · exact absurd (List.cons_eq_cons.mp ht).1 hop
    · obtain ⟨c, v, rfl⟩ := List.exists_cons_of_ne_nil hw
      obtain ⟨rfl, hpath⟩ := List.cons_eq_cons.mp ht
      by_cases e : v = []
      · exact Or.inl (by rw [e])
      · exact Or.inr ⟨v, e, hpath, rfl⟩
  | false =>
    have hsplit : front ++ [[Redirection.op ⟨out, false, path⟩]] ++ [path] = ts ++ [t] := by
      rw [← h, List.append_assoc]
      rfl
    obtain ⟨rfl, ht⟩ := List.append_inj' hsplit rfl
    have ht := List.singleton_inj.mp ht
    rcases hus with ⟨-, rfl⟩ | ⟨w, hw, rfl, rfl⟩
    · exact Or.inl rfl
    · exact Or.inr ⟨w, hw, ht, List.append_assoc ..⟩

theorem redirections_op (r : Redirection) (paths : Paths) : redirections [[r.op]] paths = none := by
  obtain ⟨out, glued, path⟩ := r
  cases out <;> rfl

section Cut

-- the tokens of a segment, and those of a text that lacks its last character, a `&`
variable {s : Segment} {segment : List Char} {ts : List Token} {t : Token} (hts : s.tokens = ts ++ [t])
  (hcut : (t = ['&'] ∧ words isDelimiter segment = ts) ∨
    ∃ w, w ≠ [] ∧ t = w ++ ['&'] ∧ words isDelimiter segment = ts ++ [w])

include hts hcut

theorem cut_few : (words isDelimiter segment).length ≤ 79 := by
  have hfew := s.few
  rw [show tokensOf s.args s.redirs = ts ++ [t] from hts, List.length_append, List.length_singleton] at hfew
  rcases hcut with ⟨-, hus⟩ | ⟨w, -, -, hus⟩
  · rw [hus]
    omega
  · rw [hus, List.length_append, List.length_singleton]
    omega

/-- The last argument has changed, or is gone. -/
theorem cut_args {status : Int} {p : Process} (hr : s.redirs = [])
    (hp : parseProcessCommand status segment = some p) : argv p.argv ≠ s.args := by
  intro h
  have hargs : s.args = ts ++ [t] := by
    rw [← hts, Segment.tokens, tokensOf, hr]
    simp
  have hred : ∀ w ∈ ts ++ [t], isRedirection w = false := by
    rw [← hargs]
    exact fun w hw => (s.word w hw).2
  have hall : ∀ w ∈ words isDelimiter segment, isRedirection w = false := by
    intro u hu
    rcases hcut with ⟨-, hus⟩ | ⟨w, hw, rfl, hus⟩
    · exact hred u (List.mem_append_left _ (hus ▸ hu))
    · rw [hus] at hu
      rcases List.mem_append.mp hu with hu | hu
      · exact hred u (List.mem_append_left _ hu)
      · -- the first character is still there
        have hlong := hred (w ++ ['&']) (List.mem_append_right _ (List.mem_singleton_self _))
        rw [List.mem_singleton.mp hu]
        obtain ⟨c, cs, rfl⟩ := List.exists_cons_of_ne_nil hw
        exact hlong
  have hargv := (argv_plain hall (cut_few hts hcut) hp).symm.trans (h.trans hargs)
  rcases hcut with ⟨-, hus⟩ | ⟨w, -, rfl, hus⟩
  · rw [hus] at hargv
    simpa using congrArg List.length hargv
  · rw [hus] at hargv
    simp at hargv

/-- The last path has changed, or its operator stands alone. -/
theorem cut_paths {status : Int} {p : Process} {rs : List Redirection} {r : Redirection} (hr : s.redirs = rs ++ [r])
    (hp : parseProcessCommand status segment = some p) : ¬ (p.inPath = s.inPath ∧ p.outPath = s.outPath) := by
  intro h
  obtain ⟨name, args, hargs⟩ := List.exists_cons_of_ne_nil s.nonempty
  have hsplit : s.args ++ rs.flatMap Redirection.tokens ++ r.tokens = ts ++ [t] := by
    rw [← hts, Segment.tokens, tokensOf, hr]
    simp
  have hrs : ∀ q ∈ rs, q.path ≠ [] := fun q hq => (s.path q (by rw [hr]; exact List.mem_append_left _ hq)).ne
  have hread : ∀ rest, words isDelimiter segment = s.args ++ rs.flatMap Redirection.tokens ++ rest →
      (∀ u ∈ rest.head?, isRedirection u = true) →
      ∃ paths, redirections rest (rs.foldl Redirection.store ⟨none, none⟩) = some paths ∧
        p.inPath = paths.inPath ∧ p.outPath = paths.outPath := by
    intro rest hus hhead
    rw [hargs, List.append_assoc] at hus
    have heq := parseProcessCommand_eq status hus (by rw [← hargs]; exact fun w hw => (s.word w hw).2) hrs hhead
      (cut_few hts hcut)
    rw [hp] at heq
    obtain ⟨paths, hpaths, rfl⟩ := Option.map_eq_some_iff.mp heq.symm
    exact ⟨paths, hpaths, rfl, rfl⟩
  rcases redirection_cut hsplit hcut with hus | ⟨v, hv, hpath, hus⟩
  · obtain ⟨paths, hpaths, -⟩ := hread _ hus (by cases r.out <;> simp [Redirection.op, isRedirection])
    rw [redirections_op] at hpaths
    cases hpaths
  · obtain ⟨u, us, hu, hred⟩ := isRedirection_tokens { r with path := v }
    obtain ⟨paths, hpaths, hin, hout⟩ := hread _ hus (by
      rw [hu]
      intro x hx
      cases hx
      exact hred)
    have hstore := redirections_cons { r with path := v } hv [] (rs.foldl Redirection.store ⟨none, none⟩)
    rw [List.append_nil, hpaths, redirections] at hstore
    cases hstore
    have hspec : (⟨s.inPath, s.outPath⟩ : Paths) = Redirection.store (rs.foldl Redirection.store ⟨none, none⟩) r := by
      have := foldl_store s.redirs
      rw [hr, List.foldl_append] at this
      rw [Segment.inPath, Segment.outPath, hr]
      exact this.symm
    have hin' := congrArg Paths.inPath hspec
    have hout' := congrArg Paths.outPath hspec
    rw [← h.1, hin] at hin'
    rw [← h.2, hout] at hout'
    cases ho : r.out with
    | false => simp [Redirection.store, ho, hpath] at hin'
    | true => simp [Redirection.store, ho, hpath] at hout'

end Cut

/-- A segment that has lost its last character, a `&`, is read as something else, or not at all. -/
theorem Segment.not_reads (s : Segment) {z : List Char} (hz : s.text = z ++ ['&']) {status : Int} {p : Process}
    (hp : parseProcessCommand status (z.dropWhile isBlank) = some p) : ¬ Reads s p := by
  intro h
  rcases List.eq_nil_or_concat' s.tokens with e | ⟨ts, t, hts⟩
  · exact s.nonempty (List.append_eq_nil_iff.mp e).1
  have hcut := words_dropLast (by decide) (show words isDelimiter (z ++ ['&']) = ts ++ [t] by
    rw [← hz, s.words_text, hts])
  rw [← words_skip z] at hcut
  rcases List.eq_nil_or_concat' s.redirs with hr | ⟨rs, r, hr⟩
  · exact cut_args hts hcut hr hp h.argv
  · exact cut_paths hts hcut hr hp ⟨h.inPath, h.outPath⟩

/-! ## Cutting a line at its bars -/

theorem dropWhile_before (x r : List Char) {c : Char} (hc : isBlank c = false) :
    (x ++ c :: r).dropWhile isBlank = x.dropWhile isBlank ++ c :: r := by
  induction x with
  | nil => simp [hc]
  | cons a x ih =>
    by_cases ha : isBlank a = true
    · simpa [ha] using ih
    · simp [ha]

theorem join_cons (x : List Char) {xs : List (List Char)} (h : xs ≠ []) : join (x :: xs) = x ++ '|' :: join xs := by
  obtain ⟨y, ys, rfl⟩ := List.exists_cons_of_ne_nil h
  rfl

theorem join_snoc (xs : List (List Char)) (y z : List Char) : join (xs ++ [y ++ z]) = join (xs ++ [y]) ++ z := by
  induction xs with
  | nil => rfl
  | cons x xs ih =>
    rw [List.cons_append, List.cons_append, join_cons x (by simp), join_cons x (by simp), ih]
    simp

theorem dropWhile_join (x : List Char) (xs : List (List Char)) :
    (join (x :: xs)).dropWhile isBlank = join (x.dropWhile isBlank :: xs) := by
  cases xs with
  | nil => rfl
  | cons y ys => exact dropWhile_before x _ (by decide)

/-- The counter passes the characters of a segment. -/
theorem segments_pass (d y r : List Char) (hy : '|' ∉ y) :
    segments (d ++ y ++ r) d.length (y ++ r) = segments (d ++ y ++ r) (d ++ y).length r := by
  induction y generalizing d with
  | nil => simp
  | cons c y ih =>
    obtain ⟨hc, hy⟩ := not_or.mp (mt List.mem_cons.mpr hy)
    have hrec := ih (d ++ [c]) hy
    rw [List.cons_append, segments, if_neg (Ne.symm hc)]
    simpa using hrec

theorem segments_join (x : List Char) (xs : List (List Char)) (h : ∀ y ∈ x :: xs, '|' ∉ y) :
    segments (join (x :: xs)) 0 (join (x :: xs)) = x :: xs.map (List.dropWhile isBlank) := by
  induction xs generalizing x with
  | nil =>
    have hpass := segments_pass [] x [] (h x (List.mem_cons_self ..))
    simp only [List.nil_append, List.append_nil, List.length_nil] at hpass
    rw [show join [x] = x from rfl, hpass, segments, List.take_length]
    rfl
  | cons y ys ih =>
    obtain ⟨hx, hy⟩ := List.forall_mem_cons.mp h
    obtain ⟨hy, hys⟩ := List.forall_mem_cons.mp hy
    have hpass := segments_pass [] x ('|' :: join (y :: ys)) hx
    simp only [List.nil_append, List.length_nil] at hpass
    have hskip : (join (y :: ys)).dropWhile (fun c => decide (c = ' ')) = join (y.dropWhile isBlank :: ys) :=
      dropWhile_join y ys
    have hrec := ih (y.dropWhile isBlank)
      (List.forall_mem_cons.mpr ⟨fun hm => hy (List.dropWhile_subset _ hm), hys⟩)
    rw [join_cons x (List.cons_ne_nil y ys), hpass, segments, if_pos rfl]
    simp only [hskip, hrec, List.take_left, List.map_cons]

/-- Every segment of a line comes without its leading spaces. -/
theorem segments_line {xs : List (List Char)} (hne : xs ≠ []) (h : ∀ y ∈ xs, '|' ∉ y) :
    segments ((join xs).dropWhile isBlank) 0 ((join xs).dropWhile isBlank) = xs.map (List.dropWhile isBlank) := by
  obtain ⟨x, xs, rfl⟩ := List.exists_cons_of_ne_nil hne
  obtain ⟨hx, hxs⟩ := List.forall_mem_cons.mp h
  rw [dropWhile_join]
  exact segments_join _ _ (List.forall_mem_cons.mpr ⟨fun hm => hx (List.dropWhile_subset _ hm), hxs⟩)

/-! ## The processes of a line -/

variable {junk : Junk}

theorem parseSegments_reads (junk : Junk) (k : Nat) (segs : List Segment) :
    ∃ ps, parseSegments junk k (segs.map fun s => s.text.dropWhile isBlank) = some ps ∧ List.Forall₂ Reads segs ps := by
  induction segs generalizing k with
  | nil => exact ⟨[], rfl, .nil⟩
  | cons s segs ih =>
    obtain ⟨p, hp, hr⟩ := s.reads (junk.status k)
    obtain ⟨ps, hps, hrs⟩ := ih (k + 1)
    exact ⟨p :: ps, by simp [parseSegments, hp, hps], .cons hr hrs⟩

theorem parseSegments_last {k : Nat} {xs : List (List Char)} {x : List Char} {ps : List Process}
    (h : parseSegments junk k (xs ++ [x]) = some ps) :
    ∃ qs p status, ps = qs ++ [p] ∧ parseProcessCommand status x = some p := by
  induction xs generalizing k ps with
  | nil =>
    simp only [List.nil_append, parseSegments, bind, Option.bind_eq_some_iff] at h
    obtain ⟨p, hp, rest, h, hps⟩ := h
    cases h
    cases hps
    exact ⟨[], p, _, rfl, hp⟩
  | cons y xs ih =>
    simp only [List.cons_append, parseSegments, bind, Option.bind_eq_some_iff] at h
    obtain ⟨q, -, rest, h, hps⟩ := h
    cases hps
    obtain ⟨qs, p, status, rfl, hp⟩ := ih h
    exact ⟨q :: qs, p, status, rfl, hp⟩

variable (L : Pipeline)

theorem Pipeline.no_bar : ∀ x ∈ L.segs.map Segment.text, '|' ∉ x := by
  intro x hx hm
  obtain ⟨s, -, rfl⟩ := List.mem_map.mp hx
  exact (s.char _ hm).2.1 rfl

theorem Pipeline.makeJob_body (junk : Junk) (command : List Char) (mode : Mode) :
    ∃ job, makeJob junk command mode (L.body.dropWhile isBlank) = some job ∧ job.mode = mode ∧
      List.Forall₂ Reads L.segs job.root := by
  obtain ⟨ps, hps, hr⟩ := parseSegments_reads junk 0 L.segs
  refine ⟨⟨junk.id, ps, command, -1, mode⟩, ?_, rfl, hr⟩
  rw [makeJob, Pipeline.body, segments_line (by simpa using L.nonempty) L.no_bar, List.map_map]
  exact congrArg (Option.map _) hps

/-! ## The end of a line -/

theorem Pipeline.ends : ∃ S s q c b, L.segs = S ++ [s] ∧ s.text = q ++ c :: b ∧ isBlank c = false ∧
    (∀ x ∈ b, isBlank x = true) ∧ (L.EndsInAmp ↔ c = '&') := by
  rcases List.eq_nil_or_concat' L.segs with e | ⟨S, s, hs⟩
  · exact absurd e L.nonempty
  rcases List.eq_nil_or_concat' s.tokens with e | ⟨ts, t, hts⟩
  · exact absurd (List.append_eq_nil_iff.mp e).1 s.nonempty
  have htok := s.token t (by rw [hts]; simp)
  rcases List.eq_nil_or_concat' t with e | ⟨u, c, rfl⟩
  · exact absurd e htok.ne
  obtain ⟨a, b, htext, hb⟩ := Spaced.last (show Spaced isBlank (ts ++ [u ++ [c]]) s.text from hts ▸ s.spaced)
  refine ⟨S, s, a ++ u, c, b, hs, by simp [htext], ?_, hb, ?_⟩
  · refine decide_eq_false fun e => ?_
    have := (htok.chars c (by simp)).1
    rw [e] at this
    cases this
  · simp [Pipeline.EndsInAmp, hs, hts]

theorem lastNonBlank_eq (q : List Char) {c : Char} {b : List Char} (hc : isBlank c = false)
    (hb : ∀ x ∈ b, isBlank x = true) : lastNonBlank (q ++ c :: b) = some c := by
  rw [lastNonBlank, List.reverse_append, List.reverse_cons, List.append_assoc,
    List.dropWhile_append_of_pos (fun x hx => hb x (List.mem_reverse.mp hx))]
  simp [hc]

theorem Pipeline.no_nul : nul ∉ L.text := by
  have hjoin : ∀ xs : List (List Char), (∀ x ∈ xs, nul ∉ x) → nul ∉ join xs := by
    intro xs
    induction xs with
    | nil => simp [join]
    | cons x xs ih =>
      intro h hm
      obtain ⟨hx, hxs⟩ := List.forall_mem_cons.mp h
      by_cases e : xs = []
      · exact hx (by rwa [e] at hm)
      · rw [join_cons x e] at hm
        rcases List.mem_append.mp hm with hm | hm
        · exact hx hm
        · exact ih hxs ((List.mem_cons.mp hm).resolve_left (by decide))
  intro hm
  rcases List.mem_append.mp hm with hm | hm
  · refine hjoin _ (fun x hx hn => ?_) hm
    obtain ⟨s, -, rfl⟩ := List.mem_map.mp hx
    exact (s.char _ hn).2.2 rfl
  · split at hm
    · rcases List.mem_cons.mp hm with h | h
      · exact absurd h (by decide)
      · exact absurd (List.eq_of_mem_replicate h) (by decide)
    · cases hm

/-- The test on the last character. -/
theorem parseLine_last {text : List Char} (spare : List Char) (hnul : nul ∉ text) {c : Char}
    (hc : (text.dropWhile isBlank).getLast? = some c) :
    parseLine junk ⟨text, spare⟩ =
      if c = '&' then makeJob junk (text.dropWhile isBlank) .background (text.dropWhile isBlank).dropLast
      else makeJob junk (text.dropWhile isBlank) .foreground (text.dropWhile isBlank) := by
  have htrim : cstr ((stringTrim (Line.mk text spare).buf).2.drop (stringTrim (Line.mk text spare).buf).1) =
      text.dropWhile isBlank := by
    rw [stringTrim_cstr (Line.nul_mem _), Line.buf, cstr_append hnul]
    rfl
  unfold parseLine
  simp only [htrim, hc]

theorem makeJob_mode {command line : List Char} {mode : Mode} {job : Job}
    (h : makeJob junk command mode line = some job) : job.mode = mode := by
  obtain ⟨root, -, rfl⟩ := Option.map_eq_some_iff.mp h
  rfl

theorem parseLine_mode {line : Line} {job : Job} (h : parseLine junk line = some job) : job.mode ≠ .pipeline := by
  unfold parseLine at h
  dsimp only at h
  split at h
  · split at h
    · cases h
    · rw [makeJob_mode h]
      decide
  · split at h
    all_goals
      rw [makeJob_mode h]
      decide

/-- A line that ends in a space or in a character of a token is not taken to end in `&`. -/
theorem parseLine_foreground {q b : List Char} {c : Char} (spare : List Char) (hnul : nul ∉ q ++ c :: b)
    (hc : isBlank c = false) (hlast : ∀ d ∈ (c :: b).getLast?, d ≠ '&') :
    parseLine junk ⟨q ++ c :: b, spare⟩ = makeJob junk ((q ++ c :: b).dropWhile isBlank) .foreground
      ((q ++ c :: b).dropWhile isBlank) := by
  have hd : ((q ++ c :: b).dropWhile isBlank).getLast? = some ((c :: b).getLast (List.cons_ne_nil c b)) := by
    rw [dropWhile_before q b hc, List.getLast?_append, List.getLast?_eq_some_getLast (List.cons_ne_nil c b)]
    rfl
  rw [parseLine_last spare hnul hd, if_neg (hlast _ (List.getLast?_eq_some_getLast (List.cons_ne_nil c b)))]

theorem parseLine_background {q : List Char} (spare : List Char) (hnul : nul ∉ q ++ ['&']) :
    parseLine junk ⟨q ++ ['&'], spare⟩ =
      makeJob junk ((q ++ ['&']).dropWhile isBlank) .background (q.dropWhile isBlank) := by
  have hd : (q ++ ['&']).dropWhile isBlank = q.dropWhile isBlank ++ ['&'] := dropWhile_before q [] (by decide)
  rw [parseLine_last spare hnul (c := '&') (by rw [hd]; simp), if_pos rfl, hd, List.dropLast_concat]

theorem blank_getLast {c : Char} {b : List Char} (hb : ∀ x ∈ b, isBlank x = true) (h : c ≠ '&' ∨ b ≠ []) :
    ∀ d ∈ (c :: b).getLast?, d ≠ '&' := by
  intro d hd e
  subst e
  rcases List.eq_nil_or_concat' b with rfl | ⟨b, x, rfl⟩
  · exact (h.resolve_right (fun h => h rfl)) (by simpa using hd)
  · have hx : ((c :: b) ++ [x]).getLast? = some '&' := hd
    rw [List.getLast?_concat, Option.some.injEq] at hx
    have := hb x (by simp)
    rw [hx] at this
    cases this

section Cases

variable (spare : List Char)

theorem Pipeline.parses_final (hf : L.final = true) (ht : L.trailing = 0) :
    ∃ job, parseLine junk ⟨L.text, spare⟩ = some job ∧ Parses L job := by
  have htext : L.text = L.body ++ ['&'] := by simp [Pipeline.text, hf, ht]
  have hnul := L.no_nul
  obtain ⟨job, hjob, hmode, hreads⟩ := L.makeJob_body junk ((L.body ++ ['&']).dropWhile isBlank) .background
  rw [htext] at hnul ⊢
  refine ⟨job, (parseLine_background spare hnul).trans hjob, hreads, ?_⟩
  rw [hmode, htext]
  exact iff_of_true rfl (lastNonBlank_eq L.body (by decide) (by simp))

theorem Pipeline.not_parses_foreground {q b : List Char} (htext : L.text = q ++ '&' :: b)
    (hb : ∀ x ∈ b, isBlank x = true) (hne : b ≠ []) {job : Job} (hjob : parseLine junk ⟨L.text, spare⟩ = some job) :
    ¬ Parses L job := by
  intro h
  have hnul := L.no_nul
  have hlast := lastNonBlank_eq q (c := '&') (by decide) hb
  rw [htext] at hnul hjob
  rw [parseLine_foreground spare hnul (by decide) (blank_getLast hb (Or.inr hne))] at hjob
  have hmode := h.mode.mpr (htext ▸ hlast)
  rw [makeJob_mode hjob] at hmode
  cases hmode

theorem Pipeline.parses_body {q b : List Char} {c : Char} (hf : L.final = false) (htext : L.body = q ++ c :: b)
    (hc : isBlank c = false) (hamp : c ≠ '&') (hb : ∀ x ∈ b, isBlank x = true) :
    ∃ job, parseLine junk ⟨L.text, spare⟩ = some job ∧ Parses L job := by
  have hbody : L.text = L.body := by simp [Pipeline.text, hf]
  have hnul := L.no_nul
  obtain ⟨job, hjob, hmode, hreads⟩ := L.makeJob_body junk (L.body.dropWhile isBlank) .foreground
  have hlast := lastNonBlank_eq q hc hb
  rw [hbody, htext] at hnul
  refine ⟨job, ?_, hreads, ?_⟩
  · rw [hbody, htext, parseLine_foreground spare hnul hc (blank_getLast hb (Or.inl hamp)), ← htext]
    exact hjob
  · rw [hmode, hbody, htext, hlast, Option.some.injEq]
    exact iff_of_false (by decide) hamp

/-- The last segment has lost its `&`. -/
theorem Pipeline.not_parses_background {S : List Segment} {s : Segment} {q : List Char} (hf : L.final = false)
    (hsegs : L.segs = S ++ [s]) (hs : s.text = q ++ ['&']) {job : Job}
    (hjob : parseLine junk ⟨L.text, spare⟩ = some job) : ¬ Parses L job := by
  intro h
  have hbody : L.text = join (S.map Segment.text ++ [q]) ++ ['&'] := by
    simp [Pipeline.text, Pipeline.body, hf, hsegs, hs, ← join_snoc]
  have hnul := L.no_nul
  have hbar : ∀ x ∈ S.map Segment.text ++ [q], '|' ∉ x := by
    have hall := L.no_bar
    simp only [hsegs, List.map_append, List.forall_mem_append] at hall
    refine List.forall_mem_append.mpr ⟨hall.1, List.forall_mem_singleton.mpr fun hm => hall.2 s.text (by simp) ?_⟩
    rw [hs]
    exact List.mem_append_left _ hm
  rw [hbody] at hnul hjob
  rw [parseLine_background spare hnul, makeJob, segments_line (by simp) hbar, List.map_append] at hjob
  obtain ⟨root, hroot, rfl⟩ := Option.map_eq_some_iff.mp hjob
  obtain ⟨qs, p, status, rfl, hp⟩ := parseSegments_last hroot
  have hreads : List.Forall₂ Reads (S ++ [s]) (qs ++ [p]) := hsegs ▸ h.processes
  rw [← List.forall₂_reverse_iff, List.reverse_append, List.reverse_append] at hreads
  cases hreads with
  | cons hlast _ => exact s.not_reads hs hp hlast

end Cases

/-- The draft shell reads a well-formed line as it is meant, unless spaces follow its final `&` or
    there is none and its last token ends in `&`. -/
theorem parse_iff (junk : Junk) (L : Pipeline) (spare : List Char) :
    (∃ job, parseLine junk ⟨L.text, spare⟩ = some job ∧ Parses L job) ↔
      if L.final then L.trailing = 0 else ¬ L.EndsInAmp := by
  cases hf : L.final with
  | true =>
    rw [if_pos rfl]
    by_cases ht : L.trailing = 0
    · exact iff_of_true (L.parses_final spare hf ht) ht
    · refine iff_of_false (fun h => ?_) ht
      obtain ⟨job, hjob, hparses⟩ := h
      have htext : L.text = L.body ++ '&' :: List.replicate L.trailing ' ' := by simp [Pipeline.text, hf]
      refine L.not_parses_foreground spare htext (fun x hx => ?_) (by simpa using ht) hjob hparses
      rw [List.eq_of_mem_replicate hx]
      rfl
  | false =>
    obtain ⟨S, s, q, c, b, hsegs, hs, hc, hb, hamp⟩ := L.ends
    have hbody : L.body = join (S.map Segment.text ++ [q]) ++ c :: b := by
      simp [Pipeline.body, hsegs, hs, ← join_snoc]
    have htext : L.text = L.body := by simp [Pipeline.text, hf]
    rw [if_neg (by decide), hamp]
    by_cases e : c = '&'
    · refine iff_of_false (fun h => ?_) (fun h => h e)
      obtain ⟨job, hjob, hparses⟩ := h
      subst e
      by_cases hne : b = []
      · exact L.not_parses_background spare hf hsegs (hne ▸ hs) hjob hparses
      · exact L.not_parses_foreground spare (htext.trans hbody) hb hne hjob hparses
    · exact iff_of_true (L.parses_body spare hf hbody hc e hb) e

/-- `ls & ` -/
def spacedBackground : Pipeline where
  segs := [{
    args := [['l', 's']]
    redirs := []
    text := ['l', 's', ' ']
    nonempty := List.cons_ne_nil _ _
    word := List.forall_mem_singleton.mpr ⟨⟨List.cons_ne_nil _ _, by simp [isDelimiter, nul]⟩, by decide⟩
    path := by simp
    few := by decide
    spaced := spaced_words isBlank ['l', 's', ' '] }]
  nonempty := List.cons_ne_nil _ _
  final := true
  trailing := 1

/-- The job of `ls & ` runs in the foreground. -/
theorem amp_before_space : spacedBackground.text = "ls & ".toList ∧ lastNonBlank spacedBackground.text = some '&' ∧
    ∀ (junk : Junk) (spare : List Char),
      (∀ job, parseLine junk ⟨spacedBackground.text, spare⟩ = some job → job.mode = .foreground) ∧
      ¬ ∃ job, parseLine junk ⟨spacedBackground.text, spare⟩ = some job ∧ Parses spacedBackground job := by
  have hb : ∀ x ∈ [' '], isBlank x = true := by simp [isBlank]
  refine ⟨by decide, by decide, fun junk spare => ⟨fun job hjob => ?_, fun h => ?_⟩⟩
  · have hline : parseLine junk ⟨['l', 's', ' '] ++ '&' :: [' '], spare⟩ = _ :=
      parseLine_foreground spare spacedBackground.no_nul rfl (blank_getLast hb (Or.inr (by simp)))
    exact makeJob_mode (hline.symm.trans hjob)
  · obtain ⟨job, hjob, hparses⟩ := h
    exact spacedBackground.not_parses_foreground spare (q := ['l', 's', ' ']) rfl hb (List.cons_ne_nil _ _) hjob hparses

end CS5600.Shell.Draft
