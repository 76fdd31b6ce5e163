/-
All that is exchanged is read back as it was written, whatever blanks there
are between its tokens and in whatever order the members of its objects come
(`reading_undoes_writing`). The line that a report is sent in is one line,
and the report is found in it again.

Numbers are written as they are; one is read back if it fits the field that
it is for. What fits is said type by type (`InRange`).
-/
import SymbolicSearch.Adviser.Dialogue
import SymbolicSearch.Exchange.Plan
import SymbolicSearch.Exchange.Program
import SymbolicSearch.Proofs.Json.Codec
import SymbolicSearch.Proofs.Json.Numeral

namespace SymbolicSearch

open Json

-- ============================================================== what fits

structure Site.InRange (s : Site) : Prop where
  method : s.method < UInt32.size
  index : s.index < UInt64.size

def Stmt.InRange (s : Stmt) : Prop := s.site.InRange

structure Instr.InRange (i : Instr) : Prop where
  targets : ∀ n ∈ i.targets, n < UInt64.size
  handlers : ∀ n ∈ i.handlers, n < UInt64.size

structure Routine.InRange (r : Routine) : Prop where
  method : r.method < UInt32.size
  code : ∀ i ∈ r.code, i.InRange

structure Block.InRange (b : Block) : Prop where
  id : b.id < UInt64.size
  method : b.method < UInt32.size
  first : b.first < UInt64.size
  last : b.last < UInt64.size
  occupants : ∀ n ∈ b.occupants, n < UInt32.size

structure Visit.InRange (v : Visit) : Prop where
  block : v.block < UInt64.size
  count : v.count < UInt32.size
  step : v.step < UInt64.size

def Plan.InRange (p : Plan) : Prop := p.switchAt < UInt64.size

namespace Report

structure Vertex.InRange (v : Vertex) : Prop where
  id : v.id < UInt64.size
  size : v.size < UInt32.size
  states : ∀ n ∈ v.states, n < UInt32.size

structure State.InRange (s : State) : Prop where
  id : s.id < UInt32.size
  position : ∀ b ∈ s.position, b < UInt64.size
  conditions : s.conditions < UInt32.size
  again : s.again < UInt32.size
  openInZone : s.openInZone < UInt32.size
  openOutside : s.openOutside < UInt32.size
  moved : s.moved < UInt64.size
  dwell : s.dwell < UInt32.size
  history : ∀ v ∈ s.history, v.InRange
  children : ∀ n ∈ s.children, n < UInt32.size

structure Arrow.InRange (a : Arrow) : Prop where
  source : a.source < UInt64.size
  target : a.target < UInt64.size
  token : Codec.FitsInt64 a.token

end Report

structure Report.InRange (r : Report) : Prop where
  vertices : ∀ v ∈ r.vertices, v.InRange
  states : ∀ s ∈ r.states, s.InRange
  arrows : ∀ a ∈ r.arrows, a.InRange

namespace Exchange

open Codec Fields

-- =============================================================== programs

theorem lawful_site : site.Lawful Site.InRange :=
  (Fields.Lawful.whole (.cons lawful_nat32 (.cons lawful_nat64 lawful_done)) (by decide)).via
    fun _ hs => ⟨⟨hs.method, hs.index, trivial⟩, rfl⟩

theorem lawful_standIn (name : String) : (standIn name).Lawful Site.InRange :=
  (Fields.Lawful.whole (.cons (f := .required name site) lawful_site lawful_done)
    (List.nodup_singleton name)).via fun _ hs => ⟨⟨hs, trivial⟩, rfl⟩

theorem lawful_instrKind : instrKind.Lawful fun _ => True :=
  lawful_choice fun k => by cases k <;> rfl

theorem lawful_instr : instr.Lawful Instr.InRange :=
  (Fields.Lawful.whole (.cons lawful_instrKind (.cons lawful_nat64.list
    (.cons lawful_nat64.list lawful_done))) (by decide)).via
    fun _ hi => ⟨⟨trivial, hi.targets, hi.handlers, trivial⟩, rfl⟩

theorem lawful_routine : routine.Lawful Routine.InRange :=
  (Fields.Lawful.whole (.cons lawful_nat32 (.cons lawful_string (.cons lawful_instr.list
    lawful_done))) (by decide)).via fun _ hr => ⟨⟨hr.method, trivial, hr.code, trivial⟩, rfl⟩

theorem lawful_block : block.Lawful Block.InRange :=
  (Fields.Lawful.whole (.cons lawful_nat64 (.cons lawful_nat32 (.cons lawful_nat64
    (.cons lawful_nat64 (.cons lawful_bool (.cons lawful_bool (.cons lawful_bool
    (.cons lawful_bool (.cons lawful_bool (.cons lawful_bool (.cons lawful_nat32.idSet
    lawful_done))))))))))) (by decide)).via fun _ hb =>
      ⟨⟨hb.id, hb.method, hb.first, hb.last, trivial, trivial, trivial, trivial, trivial, trivial,
        hb.occupants, trivial⟩, rfl⟩

theorem lawful_stmt : stmt.Lawful Stmt.InRange := by
  have hplain : ∀ {name : String} {w : Json}, w.IsPlain → (Json.object [(some name, w)]).IsPlain :=
    fun hw => ⟨rfl, hw, trivial⟩
  intro s hs j hj
  cases s with
  | instr at_ =>
      obtain ⟨w, rfl, hw⟩ := Reordered.single hj
      obtain ⟨hp, hdecode⟩ := lawful_site at_ hs w hw
      refine ⟨hplain hp, ?_⟩
      show (site.decode? w).bind (fun s => some (Stmt.instr s)) = _
      rw [hdecode]
      rfl
  | methodEntry first =>
      obtain ⟨w, rfl, hw⟩ := Reordered.single hj
      obtain ⟨hp, hdecode⟩ := lawful_standIn "entry" first hs w hw
      refine ⟨hplain hp, ?_⟩
      show ((standIn "entry").decode? w).bind (fun s => some (Stmt.methodEntry s)) = _
      rw [hdecode]
      rfl
  | concreteCall call =>
      obtain ⟨w, rfl, hw⟩ := Reordered.single hj
      obtain ⟨hp, hdecode⟩ := lawful_standIn "call" call hs w hw
      refine ⟨hplain hp, ?_⟩
      show ((standIn "call").decode? w).bind (fun s => some (Stmt.concreteCall s)) = _
      rw [hdecode]
      rfl

-- ================================================================== plans

theorem lawful_plan : plan.Lawful Plan.InRange := by
  have hstyle : style.Lawful fun _ => True := lawful_choice fun s => by cases s <;> rfl
  have hprovider : provider.Lawful fun _ => True := lawful_choice fun p => by cases p <;> rfl
  have hpolicy : policy.Lawful fun _ => True := lawful_choice fun p => by cases p <;> rfl
  exact (Fields.Lawful.record (.cons hstyle.list (.cons lawful_nat64 (.cons hprovider
    (.cons hpolicy lawful_done)))) (by decide) true).via
      fun _ hp => ⟨⟨fun _ _ => trivial, hp, trivial, trivial, trivial⟩, rfl⟩

-- ================================================================== games

theorem lawful_visitAs {block count step : String} (hnames : [block, count, step].Nodup) :
    (visitAs block count step).Lawful Visit.InRange :=
  (Fields.Lawful.whole (.cons (f := .required block nat64) lawful_nat64
    (.cons (f := .required count nat32) lawful_nat32
      (.cons (f := .required step nat64) lawful_nat64 lawful_done))) hnames).via
    fun _ hv => ⟨⟨hv.block, hv.count, hv.step, trivial⟩, rfl⟩

theorem lawful_vertex : vertex.Lawful Report.Vertex.InRange :=
  (Fields.Lawful.whole (.cons lawful_nat64 (.cons lawful_bool (.cons lawful_nat32
    (.cons lawful_bool (.cons lawful_bool (.cons lawful_bool (.cons lawful_bool
    (.cons lawful_bool (.cons lawful_nat32.list lawful_done))))))))) (by decide)).via
    fun _ hv => ⟨⟨hv.id, trivial, hv.size, trivial, trivial, trivial, trivial, trivial, hv.states,
      trivial⟩, rfl⟩

theorem lawful_state : state.Lawful Report.State.InRange := by
  have hposition : nat64.option.Lawful fun o => ∀ b ∈ o, b < UInt64.size :=
    lawful_nat64.option fun _ => Json.noConfusion
  have hhistory : (Codec.list reportedVisit).Lawful fun l => ∀ v ∈ l, v.InRange :=
    (lawful_visitAs (by decide)).list
  exact (Fields.Lawful.whole (.cons lawful_nat32 (.cons (f := .optional "position" nat64) hposition
    (.cons lawful_nat32 (.cons lawful_nat32 (.cons lawful_nat32 (.cons lawful_nat32
    (.cons lawful_nat64 (.cons lawful_nat32 (.cons hhistory (.cons lawful_nat32.list
    lawful_done)))))))))) (by decide)).via fun _ hs =>
      ⟨⟨hs.id, hs.position, hs.conditions, hs.again, hs.openInZone, hs.openOutside, hs.moved,
        hs.dwell, hs.history, hs.children, trivial⟩, rfl⟩

theorem lawful_label : label.Lawful FitsInt64 :=
  (Fields.Lawful.whole (.cons lawful_int64 lawful_done) (by decide)).via
    fun _ ht => ⟨⟨ht, trivial⟩, rfl⟩

theorem lawful_arrow : arrow.Lawful Report.Arrow.InRange :=
  (Fields.Lawful.whole (.cons lawful_nat64 (.cons lawful_nat64 (.cons lawful_label
    lawful_done))) (by decide)).via fun _ ha => ⟨⟨ha.source, ha.target, ha.token, trivial⟩, rfl⟩

theorem lawful_report : report.Lawful Report.InRange :=
  (Fields.Lawful.whole (.cons lawful_vertex.list (.cons lawful_state.list
    (.cons lawful_arrow.list lawful_done))) (by decide)).via
    fun _ hr => ⟨⟨hr.vertices, hr.states, hr.arrows, trivial⟩, rfl⟩

-- ================================================================ messages

/-- An answer can be kept until its type is known. -/
theorem canWait_answer {s : StateNo} (hs : s < UInt32.size) {j : Json}
    (hj : Reordered (.obj [("stateId", .nat s)]) j) : canWait j = true := by
  obtain ⟨w, rfl, hw⟩ := Reordered.single hj
  cases hw with
  | number =>
      have hread : (Numeral.ofNat s).isReadable = true :=
        Numeral.isReadable_ofNat (Nat.lt_trans hs (by decide))
      have hsound : isSound (.object [(some "stateId", .number (.ofNat s))]) = true := by
        show (true && (Numeral.ofNat s).isReadable && true) = true
        rw [hread]
        rfl
      rw [canWait, hsound]
      rfl

theorem lawful_answer : answer.Lawful (· < UInt32.size) := by
  refine lawful_message ?_ (by decide) ?_ "Step"
  · exact (Fields.Lawful.whole (.cons lawful_nat32 lawful_done) (by decide)).via
      fun _ hs => ⟨⟨hs, trivial⟩, rfl⟩
  · intro s hs j hj
    exact canWait_answer hs hj

end Exchange

-- ================================================================ the line

theorem newline_not_mem_map {l : List Nat} (h : ∀ n ∈ l, n % 256 ≠ 10) :
    newline ∉ l.map UInt8.ofNat := by
  intro hmem
  obtain ⟨n, hn, hbyte⟩ := List.mem_map.1 hmem
  have htoNat := congrArg UInt8.toNat hbyte
  rw [UInt8.toNat_ofNat'] at htoNat
  exact h n hn htoNat

/-- A character above the control characters has no newline among its
bytes. -/
theorem newline_not_mem_utf8EncodeChar {c : Char} (hc : isVisible c = true) :
    newline ∉ String.utf8EncodeChar c := by
  have hval : 0x20 ≤ c.val.toNat := of_decide_eq_true hc
  unfold String.utf8EncodeChar
  simp only
  generalize c.val.toNat = n at *
  split
  · exact newline_not_mem_map (l := [_]) (by simp only [List.forall_mem_singleton]; omega)
  -- of several bytes, each is above those that stand alone
  have hmany : ∀ k : Nat, (k % 64 + 128) % 256 ≠ 10 := fun k => by omega
  split
  · exact newline_not_mem_map (l := [_, _]) (by simp [hmany]; omega)
  split
  · exact newline_not_mem_map (l := [_, _, _]) (by simp [hmany]; omega)
  · exact newline_not_mem_map (l := [_, _, _, _]) (by simp [hmany]; omega)

/-- A text without control characters is all in one line. -/
theorem newline_not_mem_flatMap {text : List Char} (h : ∀ c ∈ text, isVisible c = true) :
    newline ∉ text.flatMap String.utf8EncodeChar := by
  intro hmem
  obtain ⟨c, hc, hmem⟩ := List.mem_flatMap.1 hmem
  exact newline_not_mem_utf8EncodeChar (h c hc) hmem

/-- The bytes of a text. -/
def bytesOf (s : String) : List UInt8 := s.toUTF8.data.toList

theorem bytesOf_eq (s : String) : bytesOf s = s.toList.flatMap String.utf8EncodeChar := by
  rw [bytesOf, String.toUTF8, ← String.utf8Encode_toList, List.utf8Encode, List.data_toByteArray]

/-- The line that a report is sent in. -/
def requestLine (r : Report) : String := (Exchange.request.encode r).text ++ "\n"

/-- A line carries a report. -/
structure Carries (line : String) (r : Report) : Prop where
  /-- The line is the report's text in a frame that is always the same. -/
  frame : line.toList =
    "\x7b\"messageType\":\"ReadyForNextStep\",\"messageBody\":".toList ++
      (Exchange.report.encode r).chars ++ ['\x7d', '\n']
  /-- It ends with its only newline. -/
  ends : ∃ bytes, bytesOf line = bytes ++ [newline] ∧ newline ∉ bytes
  /-- It is a message whose body reads as the report. -/
  body : ∃ body, parse? line.toList = some
      (.obj [("messageType", .str "ReadyForNextStep"), ("messageBody", body)]) ∧
    Exchange.report.decode? body = some r

theorem carries_requestLine {r : Report} (hr : r.InRange) : Carries (requestLine r) r := by
  obtain ⟨hplain, hdecode⟩ := Exchange.lawful_report r hr _ (.refl _)
  have hmessage : (Exchange.request.encode r).IsPlain := ⟨rfl, rfl, rfl, hplain, trivial⟩
  have hline : (requestLine r).toList = (Exchange.request.encode r).chars ++ ['\n'] := by
    rw [requestLine, Json.text, String.toList_append, String.toList_ofList]
    rfl
  refine ⟨?_, ?_, Exchange.report.encode r, ?_, hdecode⟩
  · have htokens : (Exchange.request.encode r).tokens =
        [.openBrace, .string (some "messageType"), .colon, .string (some "ReadyForNextStep"),
          .comma, .string (some "messageBody"), .colon] ++
          ((Exchange.report.encode r).tokens ++ [.closeBrace]) := rfl
    rw [hline, Json.chars, htokens, List.flatMap_append, List.flatMap_append, List.append_assoc,
      List.append_assoc, List.append_assoc]
    rfl
  · refine ⟨(Exchange.request.encode r).chars.flatMap String.utf8EncodeChar, ?_,
      newline_not_mem_flatMap (isVisible_of_mem_compact hmessage)⟩
    rw [bytesOf_eq, hline, List.flatMap_append]
    rfl
  · rw [hline]
    exact parse?_of_spaced hmessage ((spaced_compact _).append_gap (List.all_eq_true.1 rfl))

/-- A dialogue sends a report in its line, or nothing. -/
theorem sent_ask (d : Dialogue) (r : Report) :
    (d.ask r).sent = none ∨ (d.ask r).sent = some (requestLine r) := by
  unfold Dialogue.ask
  dsimp only
  split
  · exact Or.inl rfl
  · exact Or.inr rfl

-- =========================================================== all that is sent

/-- Reports, routines, blocks, visits, statements, plans and answers are read
back as they were written, whatever blanks there are and in whatever order
the members come. A report that is sent goes out as one line, from which it
is read back. -/
theorem reading_undoes_writing :
    Exchange.report.Faithful Report.InRange ∧ Exchange.routine.Faithful Routine.InRange ∧
      Exchange.block.Faithful Block.InRange ∧ Exchange.visit.Faithful Visit.InRange ∧
      Exchange.stmt.Faithful Stmt.InRange ∧ Exchange.plan.Faithful Plan.InRange ∧
      Exchange.answer.Faithful (· < UInt32.size) ∧
      ∀ r : Report, r.InRange →
        (∀ (d : Dialogue) (line : String), (d.ask r).sent = some line → Carries line r) ∧
          ∀ unread, ∃ line, (Dialogue.ask ⟨unread, .free⟩ r).sent = some line := by
  refine ⟨Exchange.lawful_report.faithful, Exchange.lawful_routine.faithful,
    Exchange.lawful_block.faithful, (Exchange.lawful_visitAs (by decide)).faithful,
    Exchange.lawful_stmt.faithful, Exchange.lawful_plan.faithful,
    Exchange.lawful_answer.faithful, fun r hr => ⟨fun d line hline => ?_, fun unread => ?_⟩⟩
  · obtain hnone | hsome := sent_ask d r
    · cases hnone.symm.trans hline
    · obtain rfl := Option.some.inj (hsome.symm.trans hline)
      exact carries_requestLine hr
  · exact ⟨requestLine r, rfl⟩

/-- An answer whose body comes first, with blanks in it. -/
theorem reading_undoes_writing_backwards :
    let text := "\x7b \"messageBody\":\x7b\"stateId\": 7\x7d, \"messageType\":\"Step\"\x7d\n"
    (parse? text.toList).bind Exchange.answer.decode? = some 7 := by
  have hnone : ∀ c ∈ [], isGap c = true := List.all_eq_true.1 rfl
  have hblank : ∀ c ∈ [' '], isGap c = true := List.all_eq_true.1 rfl
  have hend : ∀ c ∈ ['\n'], isGap c = true := List.all_eq_true.1 rfl
  have hreordered : Reordered (Exchange.answer.encode 7)
      (.obj [("messageBody", .obj [("stateId", .nat 7)]), ("messageType", .str "Step")]) :=
    .object rfl (reordered_values _) (.swap _ _ _)
  refine (reading_undoes_writing.2.2.2.2.2.2.1 7 (by decide)).2 _ _ hreordered ?_
  exact .token hnone <| .token hblank <| .token hnone <| .token hnone <| .token hnone <|
    .token hnone <| .token hblank <| .token hnone <| .token hnone <| .token hblank <|
    .token hnone <| .token hnone <| .token hnone <| .done hend

end SymbolicSearch
