/-
  Moo-code — the command runs programs as the machine does.

  * `load_spells`: a source file spells what its bytes spell, whether they are text or not, and
    `load_text`: a file that holds a text is loaded as that text.
  * `Channel.Shows before bs r`: the bytes `bs` have come out where the output goes, and nothing
    else has changed.
  * `Report.Tells`: what a report has to say of a run: what the run prints has come out, and the
    exit status and the error stream say how the run ended, in whatever style.
  * `Options.run_eq`: the command, once it has a source text, a machine and somewhere to
    write to, is a session.
  * `Options.run_faithful`: the command comes to an end exactly if the run does, with all of
    standard input entered before it, and its report tells of that run.
-/
import MooCode.Proofs.Files
import MooCode.Proofs.Session
import MooCode.Proofs.Spelling

namespace MooCode.Console

/-! ## Loading -/

/-- **Loading loses and invents no instruction.**  The text of a source file has the characters
    that are among its bytes, and U+FFFD for each maximal piece that is ill-formed.  Read as
    a program, it is what the bytes themselves spell. -/
theorem load_spells {tree : FileTree} {path : String} {bs : List UInt8}
    (h : tree.read path = .ok bs) : ∃ text ps, load tree path = .ok text ∧
      Text.Utf8.Pieces bs ps ∧ text.toList = Text.Utf8.lossy ps ∧
      Source.decode text = Source.decodeBytes bs := by
  refine ⟨.ofList (Text.Utf8.decodeLossy bs), Text.Utf8.decode bs, ?_, Text.Utf8.pieces_decode bs,
    String.toList_ofList, Source.decode_lossy bs⟩
  rw [load, h]

/-- A character that breaks off between the letters of `moo` keeps them apart, and one that breaks
    off before a letter leaves it alone. -/
theorem load_spells_truncated : ∃ (tree : FileTree) (text : String),
    tree.read "a" = .ok [0x6D, 0xE2, 0x82, 0x6F, 0x6F, 0xF0, 0x9F, 0x6D, 0x6F, 0x6F, 0xC3] ∧
      load tree "a" = .ok text ∧ text.toList = "m\uFFFDoo\uFFFDmoo\uFFFD".toList ∧
      Source.decode text = [.jumpBack, .halt] := by
  have hr : FileTree.read ⟨[(["a"], .file [0x6D, 0xE2, 0x82, 0x6F, 0x6F, 0xF0, 0x9F, 0x6D, 0x6F,
      0x6F, 0xC3])], []⟩ "a" =
        .ok [0x6D, 0xE2, 0x82, 0x6F, 0x6F, 0xF0, 0x9F, 0x6D, 0x6F, 0x6F, 0xC3] := rfl
  obtain ⟨text, ps, hl, hp, ht, hd⟩ := load_spells hr
  obtain rfl := hp.unique (Text.Utf8.pieces_decode _)
  exact ⟨_, text, hr, hl, ht.trans (by decide), hd.trans (by decide)⟩

/-- A file that holds a text is loaded as that text. -/
theorem load_text {tree : FileTree} {path text : String}
    (h : tree.read path = .ok (Text.Utf8.encode text.toList)) : load tree path = .ok text := by
  have hl : Text.Utf8.decodeLossy (Text.Utf8.encode text.toList) = text.toList := by
    rw [Text.Utf8.decodeLossy, Text.Utf8.decode_encode]
    exact Text.Utf8.lossy_map_some text.toList
  simp only [load, h, hl, String.ofList_toList]

/-! ## Reports -/

/-- The bytes `bs` have come out on the channel, and nothing else has changed since the tree was
    `before`.  A place holds them afterwards, unless it is a device, which only takes them. -/
def Channel.Shows (before : FileTree) (bs : List UInt8) (r : Report) : Channel → Prop
  | stdout => r.stdout = bs ∧ r.tree = before
  | place p => r.stdout = [] ∧ r.received = bs ∧ r.tree.home = before.home ∧
      ∀ q, r.tree.find? q = if q = p then some (.holding bs (before.find? p)) else before.find? q

/-- The exit status after a run that ends with the event. -/
def finalStatus : Event → Nat
  | .failed _ => 1
  | _ => 0

/-- The error stream after a run that ends with the event, where no details are shown: for a run
    that is given up, a warning with the text of the fault, and the same text in bold type. -/
def finalWords (style : Style) : Event → String
  | .failed f =>
    style.record .warn ⟨.warn, "run aborted", [("error", f.message)]⟩ ++
      style.bold ("?" ++ f.message) ++ "\n"
  | _ => ""

/-- What the report `r` of a run has to say that prints `texts` and comes to the final event
    `e`. -/
structure Report.Tells (r : Report) (style : Style) (verbosity : Nat) (channel : Channel)
    (before : FileTree) (texts : List String) (e : Event) : Prop where
  output : channel.Shows before (Session.bytes texts) r
  status : r.status = finalStatus e
  stderr : verbosity = 0 → r.stderr = finalWords style e

theorem finalWords_eq (style : Style) (e : Event) :
    finalWords style e = e.warning style ++ e.exit.notice style := by
  cases e with
  | failed f =>
    simp [finalWords, Event.warning, Session.givenUp, Style.written, Record.ofEntry, Level.least,
      Event.exit, Exit.notice, Style.boldLine, String.append_assoc]
  | _ => rfl

theorem Channel.shows_ofSession {before tree : FileTree} {output : Option String}
    {channel : Channel} (h : openChannel before output = .ok (channel, tree)) (style : Style)
    (s : Session) (exit : Exit) : channel.Shows before s.output.sink.received.toList
      (.ofSession style tree channel s exit) := by
  cases channel with
  | stdout => exact ⟨rfl, openChannel_stdout h⟩
  | place p =>
    obtain ⟨rfl, hp⟩ := openChannel_place h
    exact ⟨rfl, rfl, before.home_write_truncate p _, before.find?_write_truncate hp _⟩

theorem Report.tells_ofSession {before tree : FileTree} {output : Option String}
    {channel : Channel} (h : openChannel before output = .ok (channel, tree)) {style : Style}
    {s : Session} {e : Event} {verbosity : Nat} {texts : List String}
    (hw : s.output.sink.received.toList = Session.bytes texts)
    (hl : verbosity = 0 → s.shown style = e.warning style) :
    (Report.ofSession style tree channel s e.exit).Tells style verbosity channel before texts e := by
  refine ⟨?_, ?_, fun hv => ?_⟩
  · rw [← hw]
    exact Channel.shows_ofSession h style s e.exit
  · cases channel <;> cases e <;> rfl
  · have he : (Report.ofSession style tree channel s e.exit).stderr =
        s.shown style ++ e.exit.notice style := by
      cases channel <;> rfl
    rw [he, hl hv, finalWords_eq]

/-! ## Before the run -/

section
variable {α β : Type} {tree tree' : FileTree} {x : ExceptT Fault (StateM FileTree) α}

theorem bind_of_ok {a : α} (h : x tree = (.ok a, tree'))
    (next : α → ExceptT Fault (StateM FileTree) β) : (x >>= next) tree = next a tree' := by
  have hb : (x >>= next) tree = ExceptT.bindCont next (x tree).1 (x tree).2 := rfl
  rw [hb, h]
  rfl

theorem bind_of_error {f : Fault} (h : x tree = (.error f, tree'))
    (next : α → ExceptT Fault (StateM FileTree) β) : (x >>= next) tree = (.error f, tree') := by
  have hb : (x >>= next) tree = ExceptT.bindCont next (x tree).1 (x tree).2 := rfl
  rw [hb, h]
  rfl

end

/-- What needs nothing of the tree leaves it alone. -/
theorem lift_eq {α : Type} {r x : Except Fault α} (h : x = r) (tree : FileTree) :
    (liftM x : ExceptT Fault (StateM FileTree) α) tree = (r, tree) := by
  rw [h]
  rfl

theorem loadSource_eq {tree : FileTree} {path : String} {r : Except Fault String}
    (h : load tree path = r) : loadSource path tree = (r, tree) :=
  lift_eq h tree

theorem openOutput_of_ok {tree tree' : FileTree} {output : Option String} {channel : Channel}
    (h : openChannel tree output = .ok (channel, tree')) :
    openOutput output tree = (.ok (channel, channel.output tree'), tree') :=
  bind_of_ok (lift_eq h tree) _

theorem Session.exists_begin (o : Options) (source : String) {m : Machine} (hs : m.status = .idle)
    (output : Output) : ∃ s, Session.begin o source m output = .ok s ∧
      s.machine = m.begun source ∧ s.output = output ∧ s.verbosity = o.verbosity ∧
      (o.verbosity = 0 → ∀ style, s.shown style = "") := by
  refine ⟨⟨m.begun source, output, o.verbosity,
    #[Record.ofEntry (.started (m.begun source).program.length m.tape.capacity),
      announcement o.file m.tape.capacity]⟩, ?_, rfl, rfl, rfl, ?_⟩
  · simp only [Session.begin, Machine.start_of_idle hs]
    rfl
  · intro hv style
    rw [Session.shown, hv]
    exact style.written_of_hidden (List.forall_mem_cons.2 ⟨rfl, List.forall_mem_singleton.2 rfl⟩)

namespace Options
variable {o : Options} {tree : FileTree} {source : String} {f : Fault}

theorem prepare_of_load_error (h : load tree o.file = .error f) :
    o.prepare loadSource openOutput tree = (.error f, tree) :=
  bind_of_error (loadSource_eq h) _

section
variable (h : load tree o.file = .ok source)
include h

theorem prepare_list (hl : o.list = true) : o.prepare loadSource openOutput tree =
    (.ok (.inl (Program.ofSource source).listing), tree) := by
  rw [prepare, bind_of_ok (loadSource_eq h), if_pos hl]
  rfl

theorem prepare_of_machine_error (hl : o.list = false) (hm : o.machine = .error f) :
    o.prepare loadSource openOutput tree = (.error f, tree) := by
  rw [prepare, bind_of_ok (loadSource_eq h), hl]
  exact bind_of_error (lift_eq hm tree) _

theorem prepare_begin {tree' : FileTree} {m : Machine} {channel : Channel} {s : Session}
    (hl : o.list = false) (hm : o.machine = .ok m)
    (ho : openChannel tree o.output = .ok (channel, tree'))
    (hs : Session.begin o source m (channel.output tree') = .ok s) :
    o.prepare loadSource openOutput tree = (.ok (.inr (channel, s)), tree') := by
  rw [prepare, bind_of_ok (loadSource_eq h), hl]
  refine (bind_of_ok (lift_eq hm tree) _).trans ?_
  refine (bind_of_ok (openOutput_of_ok ho) _).trans ?_
  exact bind_of_ok (lift_eq hs tree') _

end

end Options

/-! ## The command as a session -/

theorem Channel.written_output (tree : FileTree) (channel : Channel) :
    (channel.output tree).written = [] := by
  cases channel <;> rfl

/-- Once there is a source text, a machine and somewhere to write to, the command is a
    session. -/
theorem Options.run_eq {o : Options} {w : Surroundings} {source : String} {channel : Channel}
    {tree : FileTree} {m : Machine} {s : Session} (hl : o.list = false)
    (hf : load w.tree o.file = .ok source) (hm : o.machine = .ok m)
    (ho : openChannel w.tree o.output = .ok (channel, tree))
    (hs : Session.begin o source m (channel.output tree) = .ok s) (style : Style) (signal : Signal)
    (fuel : Nat) : o.run style signal fuel w =
      (s.run signal fuel 0 w.stdin).map fun r => .ofSession style tree channel r.1 r.2 := by
  rw [Options.run, Options.prepare_begin hf hl hm ho hs]

theorem Options.machine_of_one_le {o : Options} (hm : 1 ≤ o.memory) :
    ∃ m, Machine.blank o.memory.toNat = .ok m ∧ m.status = .idle ∧ m.closed = false := by
  obtain ⟨n, hn⟩ : ∃ n, o.memory.toNat = n + 1 := ⟨o.memory.toNat - 1, by omega⟩
  exact ⟨Machine.ofTape (.zeros n), by rw [hn]; rfl, rfl, rfl⟩

/-- **The command is faithful to the machine.**  It runs the program in the file that the options
    name, with at least one cell, text on standard input, no interrupt and an output with no
    limit.  Then it comes to an end exactly if, on a fresh machine of the asked capacity, some
    slices bring the run of the same source to its end when all the lines of standard input
    have been entered before it and the input has been closed; and whenever both do, the
    report tells of that run, in whatever style. -/
theorem Options.run_faithful {o : Options} {w : Surroundings} {source : String}
    {channel : Channel} {tree : FileTree} (style : Style) (hl : o.list = false) (hm : 1 ≤ o.memory)
    (hf : load w.tree o.file = .ok source) (ht : (Text.Utf8.decodeAll? w.stdin).isSome = true)
    (ho : openChannel w.tree o.output = .ok (channel, tree))
    (hr : (channel.output tree).sink.room = none) :
    ∃ m, Machine.blank o.memory.toNat = .ok m ∧
      ((∃ fuel, (o.run style Session.never fuel w).isSome = true) ↔
        ∃ budgets, ∃ e ∈ Reply.events (m.calls (upFront source (Supply.lines w.stdin) budgets)).2,
          e.isFinal = true) ∧
      ∀ fuel report budgets e, o.run style Session.never fuel w = some report →
        e ∈ Reply.events (m.calls (upFront source (Supply.lines w.stdin) budgets)).2 →
        e.isFinal = true →
        report.Tells style o.verbosity channel w.tree (Event.texts
          (Reply.events (m.calls (upFront source (Supply.lines w.stdin) budgets)).2)) e := by
  obtain ⟨m, hb, hs, hc⟩ := Options.machine_of_one_le hm
  obtain ⟨s, hbegin, hsm, hso, hsv, hlog⟩ := Session.exists_begin o source hs (channel.output tree)
  have hrun := Options.run_eq hl hf hb ho hbegin style Session.never
  have hexp := Machine.expects_of_open hc (Supply.lines w.stdin)
  have hserved : s.Served w.stdin :=
    ⟨by rw [hsm]; simp [Machine.begun], by rw [hso]; exact hr, ht, by rw [hsm]; exact hexp⟩
  have hahead : s.ahead w.stdin = (m.begun source).eager (Supply.lines w.stdin) := by
    rw [Session.ahead, hsm]
  refine ⟨m, hb, ⟨?_, ?_⟩, ?_⟩
  · rintro ⟨fuel, hsome⟩
    rw [hrun, Option.isSome_map] at hsome
    obtain ⟨⟨s', exit⟩, hs'⟩ := Option.isSome_iff_exists.1 hsome
    obtain ⟨out, hfin, hfinal, -⟩ := Session.run_finishes hserved hs'
    rw [hahead] at hfin
    obtain ⟨budgets, hmem⟩ := hfin.mem_upFront hs
    exact ⟨budgets, out.event, hmem, hfinal⟩
  · rintro ⟨budgets, e, he, hfinal⟩
    obtain ⟨m', ⟨n, hn⟩, -⟩ := (schedule_upFront _ _ budgets).finishes hs hexp he hfinal
    rw [← hahead] at hn
    obtain ⟨fuel, hfuel⟩ := Session.run_of_finish hserved hn
    refine ⟨fuel, ?_⟩
    rw [hrun, Option.isSome_map]
    exact hfuel 0
  · intro fuel report budgets e hreport he hfinal
    obtain ⟨m', hfin, -⟩ := (schedule_upFront _ _ budgets).finishes hs hexp he hfinal
    rw [hrun] at hreport
    obtain ⟨⟨s', exit⟩, hs', rfl⟩ := Option.map_eq_some_iff.1 hreport
    obtain ⟨out, hfin', -, rfl, hw, hlog'⟩ := Session.run_finishes hserved hs'
    rw [hahead] at hfin'
    -- the session and the slices have come to the same end
    obtain rfl := hfin.unique hfin'
    refine Report.tells_ofSession ho ?_ ?_
    · rw [hw, hso, Channel.written_output, List.nil_append]
    · intro hv
      rw [hlog' (hsv.trans hv) style, hlog hv, String.empty_append]

/-- The program reads an integer, prints it into a file and reads another one, on a standard input
    whose second line is none. -/
theorem Options.run_faithful_illegal_line : ∃ (o : Options) (w : Surroundings) (fuel : Nat)
    (report : Report), o.output = some "b" ∧ w.stdin = Text.Utf8.encode "41\nx".toList ∧
      w.tree.find? ["b"] = none ∧ o.run .plain Session.never fuel w = some report ∧
      report.stdout = [] ∧ report.tree.find? ["b"] = some (.file [0x34, 0x31]) ∧
      report.tree.find? ["a"] = w.tree.find? ["a"] ∧ report.status = 1 ∧
      report.stderr = " WARN run aborted error=ILLEGAL INPUT IN 2; x\n" ++
        "\x1b[1m?ILLEGAL INPUT IN 2; x\x1b[0m\n" := by
  let o : Options := ⟨"a", 3, some "b", false, 0⟩
  let w : Surroundings := ⟨⟨[(["a"], .file (Text.Utf8.encode "oom OOM oom".toList))], []⟩,
    Text.Utf8.encode "41\nx".toList⟩
  have hlines : Supply.lines w.stdin = ["41", "x"] := by
    rw [Supply.lines_of_next (show Supply.next _ = (.line "41", [0x78]) from rfl),
      Supply.lines_of_next (show Supply.next _ = (.line "x", []) from rfl), Supply.lines_nil]
  have ho : openChannel w.tree o.output = .ok (.place ["b"], w.tree.truncate ["b"]) := rfl
  have hf : load w.tree "a" = .ok "oom OOM oom" := load_text rfl
  obtain ⟨m, hm, hends, htells⟩ :=
    Options.run_faithful .plain (show o.list = false from rfl) (by decide) hf (by decide) ho rfl
  rw [hlines] at hends htells
  cases hm
  have he : .failed ⟨.illegalInput, some 2, "x"⟩ ∈ Reply.events ((Machine.ofTape (.zeros 2)).calls
      (upFront "oom OOM oom" ["41", "x"] [9, 9])).2 := by decide
  obtain ⟨fuel, hsome⟩ := hends.2 ⟨[9, 9], _, he, rfl⟩
  obtain ⟨report, hreport⟩ := Option.isSome_iff_exists.1 hsome
  obtain ⟨⟨hout, -, -, htree⟩, hstatus, hstderr⟩ := htells fuel report [9, 9] _ hreport he rfl
  refine ⟨o, w, fuel, report, rfl, rfl, rfl, hreport, hout, (htree ["b"]).trans ?_, htree ["a"],
    hstatus, (hstderr rfl).trans ?_⟩
  · decide
  · decide

end MooCode.Console
