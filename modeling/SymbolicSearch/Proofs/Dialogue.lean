/-
A dialogue keeps its place. What comes back is a stream of bytes, and
nothing but its newlines says where one answer ends. Still each question
that goes out is answered by a line of its own, however the stream is
filled and whatever has become of the questions before (`keeps_place`).

# Lines

`Cut` says what the lines of a stream are: the first one, and then those of
what is left. There is one way to cut a stream (`Cut.eq_linesOf`). A reader
does not have the lines but takes them off the stream one by one; `Reads` is
its loop over blank lines, with the number of times that it goes round. It
always comes to an end, in one way, and what it comes to is what is found
among the lines (`reads_iff`).

# The place

`Position` is what holds between two questions: as many lines that are not
blank have been taken as questions have gone out. A question that goes out
takes one line more (`Position.next`), one that does not takes none.
-/
import SymbolicSearch.Proofs.Exchange

namespace SymbolicSearch

-- ================================================================= the lines

/-- The first line of a stream, with its newline, and what is left. A stream
without a newline is one line, if it is anything. -/
inductive FirstLine : List UInt8 → List UInt8 → List UInt8 → Prop
  | open {body : List UInt8} (hne : body ≠ []) (hbody : newline ∉ body) : FirstLine body body []
  | ended {body rest : List UInt8} (hbody : newline ∉ body) :
    FirstLine (body ++ newline :: rest) (body ++ [newline]) rest

/-- A stream is cut after each newline. -/
inductive Cut : List UInt8 → List (List UInt8) → Prop
  | nil : Cut [] []
  | cons {bytes line rest : List UInt8} {l : List (List UInt8)} (hline : FirstLine bytes line rest)
    (hrest : Cut rest l) : Cut bytes (line :: l)

variable {bytes body rest line : List UInt8} {l : List (List UInt8)}

theorem cut_linesOf (bytes : List UInt8) : Cut bytes (linesOf bytes) := by
  induction bytes with
  | nil => exact .nil
  | cons b bs ih =>
      show Cut (b :: bs) (addByte b (linesOf bs))
      generalize linesOf bs = l at ih
      unfold addByte
      by_cases hb : b = newline
      · rw [if_pos hb, hb]
        exact .cons (@FirstLine.ended [] bs List.not_mem_nil) ih
      · have hcons : ∀ {body}, newline ∉ body → newline ∉ b :: body := fun hbody =>
          List.not_mem_cons_of_ne_of_not_mem (Ne.symm hb) hbody
        rw [if_neg hb]
        cases ih with
        | nil => exact .cons (.open (List.cons_ne_nil _ _) (hcons List.not_mem_nil)) .nil
        | cons hline hrest =>
            cases hline with
            | «open» hne hbody => exact .cons (.open (List.cons_ne_nil _ _) (hcons hbody)) hrest
            | ended hbody => exact .cons (.ended (hcons hbody)) hrest

theorem FirstLine.append (h : FirstLine bytes line rest) : line ++ rest = bytes := by
  cases h with
  | «open» hne hbody => exact List.append_nil _
  | ended hbody => rw [List.append_assoc, List.singleton_append]

theorem FirstLine.ne_nil (h : FirstLine bytes line rest) : line ≠ [] := by
  cases h with
  | «open» hne hbody => exact hne
  | ended hbody => exact List.append_ne_nil_of_right_ne_nil _ (List.cons_ne_nil _ _)

theorem FirstLine.linesOf_eq (h : FirstLine bytes line rest) :
    linesOf bytes = line :: linesOf rest := by
  cases h with
  | «open» hne hbody =>
      induction bytes with
      | nil => exact absurd rfl hne
      | cons b body ih =>
          obtain ⟨hb, hbody⟩ := List.ne_and_not_mem_of_not_mem_cons hbody
          show addByte b (linesOf body) = _
          unfold addByte
          rw [if_neg (Ne.symm hb)]
          cases body with
          | nil => rfl
          | cons c body => rw [ih (List.cons_ne_nil _ _) hbody]
  | @ended body _ hbody =>
      induction body with
      | nil =>
          show addByte newline (linesOf rest) = _
          unfold addByte
          rw [if_pos rfl]
          rfl
      | cons b body ih =>
          obtain ⟨hb, hbody⟩ := List.ne_and_not_mem_of_not_mem_cons hbody
          show addByte b (linesOf (body ++ newline :: rest)) = _
          rw [ih hbody]
          unfold addByte
          rw [if_neg (Ne.symm hb)]
          rfl

/-- There is one way to cut a stream. -/
theorem Cut.eq_linesOf (h : Cut bytes l) : l = linesOf bytes := by
  induction h with
  | nil => rfl
  | cons hline _ ih => rw [hline.linesOf_eq, ih]

/-- Cutting a stream loses nothing. -/
theorem Cut.flatten (h : Cut bytes l) : l.flatten = bytes := by
  induction h with
  | nil => rfl
  | cons hline _ ih => rw [List.flatten_cons, ih, hline.append]

/-- What is left when some lines are taken is cut as it was. -/
theorem Cut.drop {front back : List (List UInt8)} (h : Cut bytes (front ++ back)) :
    Cut back.flatten back := by
  induction front generalizing bytes with
  | nil => exact h.flatten.symm ▸ h
  | cons p front ih =>
      cases h with
      | cons _ hrest => exact ih hrest

-- ================================================================ one answer

/-- A line is a text just if it is the text's bytes. -/
theorem utf8?_eq_some {s : String} : utf8? line = some s.toList ↔ line = bytesOf s := by
  have hbytes : (⟨line.toArray⟩ : ByteArray) = s.toByteArray ↔ line = bytesOf s := by
    constructor
    · intro h
      exact congrArg (fun b : ByteArray => b.data.toList) h
    · intro h
      subst h
      rfl
  rw [← hbytes, utf8?, String.fromUTF8?]
  by_cases hvalid : (⟨line.toArray⟩ : ByteArray).IsValidUTF8
  · rw [dif_pos hvalid, Option.map_some, Option.some.injEq, String.toList_inj]
    exact String.toByteArray_inj.symm
  · rw [dif_neg hvalid]
    exact iff_of_false (fun h => nomatch h) fun h => hvalid (h ▸ s.isValidUTF8)

theorem utf8?_bytesOf (s : String) : utf8? (bytesOf s) = some s.toList := utf8?_eq_some.2 rfl

theorem exists_of_utf8? {text : List Char} (h : utf8? line = some text) :
    ∃ s : String, line = bytesOf s ∧ s.toList = text := by
  have htext : (String.ofList text).toList = text := String.toList_ofList
  exact ⟨String.ofList text, utf8?_eq_some.1 (htext.symm ▸ h), htext⟩

/-- A line is blank if it is a text of which nothing is left when the blanks
around it are taken away. -/
def IsBlankLine (line : List UInt8) : Prop :=
  ∃ s : String, line = bytesOf s ∧ Text.trim s.toList = []

theorem isBlankLine_iff : IsBlankLine line ↔ ∃ text ∈ utf8? line, Text.trim text = [] := by
  constructor
  · intro hline
    obtain ⟨s, rfl, htrim⟩ := hline
    exact ⟨s.toList, utf8?_bytesOf s, htrim⟩
  · intro h
    obtain ⟨text, htext, htrim⟩ := h
    obtain ⟨s, hline, rfl⟩ := exists_of_utf8? htext
    exact ⟨s, hline, htrim⟩

instance : DecidablePred IsBlankLine := fun _ => decidable_of_iff _ isBlankLine_iff.symm

theorem isBlankLine_bytesOf {s : String} :
    IsBlankLine (bytesOf s) ↔ Text.trim s.toList = [] := by
  rw [isBlankLine_iff, utf8?_bytesOf]
  exact ⟨fun ⟨_, htext, htrim⟩ => Option.some.inj htext ▸ htrim, fun htrim => ⟨_, rfl, htrim⟩⟩

/-- The answer that a line gives. -/
def replyOf (line : List UInt8) : Except Lapse StateNo :=
  match utf8? line with
  | none => .error .notRead
  | some text => answerOf (Text.trim text)

theorem answerOf_eq_ok {text : List Char} {n : StateNo} :
    answerOf text = .ok n ↔ (Json.parse? text).bind Exchange.answer.decode? = some n := by
  unfold answerOf
  cases (Json.parse? text).bind Exchange.answer.decode? with
  | none => exact iff_of_false (fun h => nomatch h) fun h => nomatch h
  | some m => rw [Except.ok.injEq, Option.some.injEq]

theorem replyOf_bytesOf (s : String) : replyOf (bytesOf s) = answerOf (Text.trim s.toList) := by
  rw [replyOf, utf8?_bytesOf]

/-- A line names a state just if it is a text and, without the blanks around
it, an answer that names it. -/
theorem replyOf_eq_ok {n : StateNo} :
    replyOf line = .ok n ↔ ∃ s : String, line = bytesOf s ∧
      (Json.parse? (Text.trim s.toList)).bind Exchange.answer.decode? = some n := by
  constructor
  · intro h
    cases htext : utf8? line with
    | none =>
        rw [replyOf, htext] at h
        cases h
    | some text =>
        obtain ⟨s, rfl, -⟩ := exists_of_utf8? htext
        rw [replyOf_bytesOf] at h
        exact ⟨s, rfl, answerOf_eq_ok.1 h⟩
  · intro hline
    obtain ⟨s, rfl, h⟩ := hline
    rw [replyOf_bytesOf]
    exact answerOf_eq_ok.2 h

theorem nextAnswer_blank (h : IsBlankLine line) : nextAnswer (line :: l) = nextAnswer l := by
  obtain ⟨text, htext, htrim⟩ := isBlankLine_iff.1 h
  rw [nextAnswer, Option.mem_def.1 htext]
  exact if_pos htrim

theorem nextAnswer_spoken (h : ¬IsBlankLine line) :
    nextAnswer (line :: l) = (replyOf line, l) := by
  rw [nextAnswer, replyOf]
  cases htext : utf8? line with
  | none => rfl
  | some text => exact if_neg fun htrim => h (isBlankLine_iff.2 ⟨text, htext, htrim⟩)

/-- Either all lines are blank or one answers, after blank ones. -/
theorem nextAnswer_cases (l : List (List UInt8)) :
    ((∀ p ∈ l, IsBlankLine p) ∧ nextAnswer l = (.error .closed, [])) ∨
      ∃ blanks line rest, l = blanks ++ line :: rest ∧ (∀ p ∈ blanks, IsBlankLine p) ∧
        ¬IsBlankLine line ∧ nextAnswer l = (replyOf line, rest) := by
  induction l with
  | nil => exact Or.inl ⟨List.forall_mem_nil _, rfl⟩
  | cons p l ih =>
      by_cases hp : IsBlankLine p
      · rw [nextAnswer_blank hp]
        refine ih.imp ?_ ?_
        · intro h
          obtain ⟨hblank, hnext⟩ := h
          exact ⟨List.forall_mem_cons.2 ⟨hp, hblank⟩, hnext⟩
        · intro h
          obtain ⟨blanks, line, rest, rfl, hblanks, hline, hnext⟩ := h
          exact ⟨p :: blanks, line, rest, rfl, List.forall_mem_cons.2 ⟨hp, hblanks⟩, hline, hnext⟩
      · exact Or.inr ⟨[], p, l, rfl, List.forall_mem_nil _, hp, nextAnswer_spoken hp⟩

-- ================================================================== the loop

/-- A reader takes lines off a stream up to the first that is not blank: how
many times it reads, what the answer is, and what is left. -/
inductive Reads : List UInt8 → Nat → Except Lapse StateNo → List UInt8 → Prop
  | closed : Reads [] 1 (.error .closed) []
  | reply {bytes line rest : List UInt8} (hline : FirstLine bytes line rest)
    (hspoken : ¬IsBlankLine line) : Reads bytes 1 (replyOf line) rest
  | blank {bytes line rest left : List UInt8} {n : Nat} {answer : Except Lapse StateNo}
    (hline : FirstLine bytes line rest) (hblank : IsBlankLine line)
    (hrest : Reads rest n answer left) : Reads bytes (n + 1) answer left

variable {left : List UInt8} {n : Nat} {answer : Except Lapse StateNo}

theorem Reads.nextAnswer_eq (h : Reads bytes n answer left) :
    nextAnswer (linesOf bytes) = (answer, linesOf left) := by
  induction h with
  | closed => rfl
  | reply hline hspoken => rw [hline.linesOf_eq, nextAnswer_spoken hspoken]
  | blank hline hblank _ ih => rw [hline.linesOf_eq, nextAnswer_blank hblank, ih]

/-- The reader goes round once for each blank line. -/
theorem Reads.rounds_eq (h : Reads bytes n answer left) :
    n = ((linesOf bytes).takeWhile (IsBlankLine ·)).length + 1 := by
  induction h with
  | closed => rfl
  | reply hline hspoken =>
      rw [hline.linesOf_eq, List.takeWhile_cons_of_neg (by simpa using hspoken)]
      rfl
  | blank hline hblank _ ih =>
      rw [hline.linesOf_eq, List.takeWhile_cons_of_pos (by simpa using hblank), List.length_cons,
        ← ih]

/-- The reader comes to an end, since each line takes bytes. -/
theorem Cut.reads (h : Cut bytes l) : ∃ n ≤ bytes.length + 1, ∃ answer left,
    Reads bytes n answer left := by
  induction h with
  | nil => exact ⟨1, Nat.le_refl _, _, _, .closed⟩
  | @cons bytes line rest _ hline _ ih =>
      have hlength : line.length + rest.length = bytes.length := by
        rw [← List.length_append, hline.append]
      have hpos : 0 < line.length := List.length_pos_iff.2 hline.ne_nil
      by_cases hblank : IsBlankLine line
      · obtain ⟨n, hn, answer, left, hreads⟩ := ih
        exact ⟨n + 1, by omega, answer, left, .blank hline hblank hreads⟩
      · exact ⟨1, by omega, _, _, .reply hline hblank⟩

/-- A reader has one way to go, which ends, and gets the answer that is found
among the lines. -/
theorem reads_iff (h : Cut bytes l) : ∃ m ≤ bytes.length + 1, ∀ n answer left,
    Reads bytes n answer left ↔
      n = m ∧ answer = (nextAnswer l).1 ∧ left = (nextAnswer l).2.flatten := by
  have hnext : ∀ {n answer left}, Reads bytes n answer left →
      answer = (nextAnswer l).1 ∧ left = (nextAnswer l).2.flatten := by
    intro n answer left hreads
    rw [h.eq_linesOf, hreads.nextAnswer_eq]
    exact ⟨rfl, (cut_linesOf left).flatten.symm⟩
  obtain ⟨m, hm, _, _, hreads⟩ := h.reads
  refine ⟨m, hm, fun n answer left => ⟨fun hr => ?_, ?_⟩⟩
  · exact ⟨hr.rounds_eq.trans hreads.rounds_eq.symm, hnext hr⟩
  · intro heq
    obtain ⟨rfl, rfl, rfl⟩ := heq
    obtain ⟨rfl, rfl⟩ := hnext hreads
    exact hreads

-- ================================================================= the place

/-- The number of lines that are not blank. -/
def spoken (l : List (List UInt8)) : Nat := l.countP fun p => ¬IsBlankLine p

theorem spoken_append (l l' : List (List UInt8)) : spoken (l ++ l') = spoken l + spoken l' :=
  List.countP_append

theorem spoken_of_blank (h : ∀ p ∈ l, IsBlankLine p) : spoken l = 0 :=
  List.countP_eq_zero.2 fun p hp => by simpa using h p hp

theorem spoken_cons (h : ¬IsBlankLine line) : spoken (line :: l) = spoken l + 1 :=
  List.countP_cons_of_pos (by simpa using h)

/-- A place among the lines of a stream: a number of lines that are not blank
have been taken, or all have been and there are not so many. -/
def Position (lines : List (List UInt8)) (i : Nat) (unread : List (List UInt8)) : Prop :=
  ∃ taken, lines = taken ++ unread ∧ (spoken taken = i ∨ unread = [] ∧ spoken taken ≤ i)

/-- What a question comes to that goes out after a number of others: its
answer, and what is left of the stream. -/
inductive Served (lines : List (List UInt8)) (i : Nat) : Except Lapse StateNo → List UInt8 → Prop
  /-- The line that is its own answers it and is the last to be taken. -/
  | reply {front back : List (List UInt8)} {line : List UInt8}
    (hlines : lines = front ++ line :: back) (hspoken : ¬IsBlankLine line)
    (hown : spoken front = i) : Served lines i (replyOf line) back.flatten
  /-- There is no line for it, and nothing is left. -/
  | closed (hfew : spoken lines ≤ i) : Served lines i (.error .closed) []

variable {lines unread : List (List UInt8)} {i : Nat}

theorem Position.next (h : Position lines i unread) :
    Served lines i (nextAnswer unread).1 (nextAnswer unread).2.flatten ∧
      Position lines (i + 1) (nextAnswer unread).2 := by
  obtain ⟨taken, rfl, htaken⟩ := h
  obtain ⟨hblank, hnext⟩ | ⟨blanks, line, rest, rfl, hblanks, hline, hnext⟩ :=
    nextAnswer_cases unread
  · have hfew : spoken (taken ++ unread) ≤ i := by
      rw [spoken_append, spoken_of_blank hblank]
      exact htaken.elim Nat.le_of_eq And.right
    rw [hnext]
    exact ⟨.closed hfew, taken ++ unread, (List.append_nil _).symm,
      Or.inr ⟨rfl, Nat.le_succ_of_le hfew⟩⟩
  · have hi : spoken taken = i := htaken.resolve_right fun h => by simp at h
    have hown : spoken (taken ++ blanks) = i := by
      rw [spoken_append, spoken_of_blank hblanks, Nat.add_zero, hi]
    rw [hnext]
    refine ⟨.reply (List.append_assoc _ _ _).symm hline hown, taken ++ blanks ++ [line], ?_,
      Or.inl ?_⟩
    · rw [List.append_assoc, List.append_assoc, List.singleton_append]
    · rw [spoken_append, spoken_cons hline, hown]
      rfl

-- ================================================================== the runs

namespace Dialogue

/-- What can happen to a dialogue: a question is asked, or its outlet comes
to be in another condition. -/
inductive Event
  | ask (r : Report)
  | outlet (o : Outlet)

/-- The dialogue after an event. -/
def after (d : Dialogue) : Event → Dialogue
  | .ask r => (d.ask r).dialogue
  | .outlet o => { d with outlet := o }

/-- The dialogue after some events. -/
def run (d : Dialogue) (es : List Event) : Dialogue := es.foldl after d

/-- Whether a question goes out: all of it is written and sent off. -/
def delivers (d : Dialogue) (r : Report) : Bool :=
  (d.outlet.send (Exchange.request.encode r).text).1.isOk

/-- The number of questions that went out. -/
def delivered (d : Dialogue) : List Event → Nat
  | [] => 0
  | .ask r :: es => (d.delivers r).toNat + (d.after (.ask r)).delivered es
  | .outlet o :: es => (d.after (.outlet o)).delivered es

/-- The bytes that have not been read. -/
def unreadBytes (d : Dialogue) : List UInt8 := d.unread.flatten

variable {d : Dialogue} {r : Report}

theorem ask_of_delivers (h : d.delivers r = true) :
    (d.ask r).answer = (nextAnswer d.unread).1 ∧
      (d.ask r).dialogue.unread = (nextAnswer d.unread).2 := by
  unfold delivers at h
  unfold ask
  dsimp only
  split
  · next e o hsend =>
      rw [hsend] at h
      cases h
  · exact ⟨rfl, rfl⟩

theorem ask_of_not_delivers (h : d.delivers r = false) :
    (d.ask r).dialogue.unread = d.unread ∧ ∃ e, (d.ask r).answer = .error e := by
  unfold delivers at h
  unfold ask
  dsimp only
  split
  · next e o hsend => exact ⟨rfl, e, rfl⟩
  · next o hsend =>
      rw [hsend] at h
      cases h

theorem outlet_ask (d : Dialogue) (r : Report) :
    (d.ask r).dialogue.outlet = (d.outlet.send (Exchange.request.encode r).text).2 := by
  unfold ask
  dsimp only
  split
  · next hsend => rw [hsend]
  · next hsend => rw [hsend]

/-- A question goes out where everything does. -/
theorem delivers_of_free (h : d.outlet = .free) (r : Report) : d.delivers r = true := by
  unfold delivers
  rw [h]
  rfl

theorem position_after (h : Position lines i d.unread) :
    Position lines (i + (d.delivers r).toNat) (d.after (.ask r)).unread := by
  cases hsent : d.delivers r with
  | false => exact (ask_of_not_delivers hsent).1.symm ▸ h
  | true => exact (ask_of_delivers hsent).2.symm ▸ h.next.2

theorem position_run (h : Position lines i d.unread) (es : List Event) :
    Position lines (i + d.delivered es) (d.run es).unread := by
  induction es generalizing d i with
  | nil => exact h
  | cons e es ih =>
      cases e with
      | ask r =>
          rw [delivered, ← Nat.add_assoc]
          exact ih (position_after h)
      | outlet o => exact ih (d := d.after (.outlet o)) h

/-- The lines of a stream are the pieces it is cut into. Whatever happened
before, a question that does not go out fails and takes nothing from the
stream. One that goes out is served by the line of its own; so says a reader
who takes lines off the bytes that are left, and he comes to an end. -/
theorem keeps_place (bytes : List UInt8) (o : Outlet) (es : List Event) (r : Report) :
    let d := (ofBytes bytes o).run es
    Cut bytes (linesOf bytes) ∧
      (d.delivers r = false →
        (d.ask r).dialogue.unreadBytes = d.unreadBytes ∧ ∃ e, (d.ask r).answer = .error e) ∧
      (d.delivers r = true →
        Served (linesOf bytes) ((ofBytes bytes o).delivered es) (d.ask r).answer
            (d.ask r).dialogue.unreadBytes ∧
          ∃ m ≤ d.pending + 1, ∀ n answer left, Reads d.unreadBytes n answer left ↔
            n = m ∧ answer = (d.ask r).answer ∧ left = (d.ask r).dialogue.unreadBytes) ∧
      ∀ line n, replyOf line = .ok n ↔ ∃ s : String, line = bytesOf s ∧
        (Json.parse? (Text.trim s.toList)).bind Exchange.answer.decode? = some n := by
  intro d
  have hstart : Position (linesOf bytes) 0 (ofBytes bytes o).unread := ⟨[], rfl, Or.inl rfl⟩
  have hplace := position_run hstart es
  rw [Nat.zero_add] at hplace
  have hcut : Cut d.unreadBytes d.unread := by
    obtain ⟨taken, hlines, -⟩ := hplace
    have hall : Cut bytes (taken ++ d.unread) := hlines ▸ cut_linesOf bytes
    exact hall.drop
  refine ⟨cut_linesOf bytes, fun hsent => ?_, fun hsent => ?_, fun _ _ => replyOf_eq_ok⟩
  · obtain ⟨hunread, herror⟩ := ask_of_not_delivers hsent
    exact ⟨congrArg List.flatten hunread, herror⟩
  · obtain ⟨hanswer, hunread⟩ := ask_of_delivers hsent
    rw [hanswer, unreadBytes, unreadBytes, hunread]
    exact ⟨hplace.next.1, reads_iff hcut⟩

/-- The second of two questions that go out gets the second line that is not
blank. -/
theorem second_gets {back : List (List UInt8)} {p q line : List UInt8} (r : Report)
    (hlines : linesOf bytes = p :: q :: line :: back) (hp : IsBlankLine p) (hq : ¬IsBlankLine q)
    (hline : ¬IsBlankLine line) {first d : Dialogue} (hfirst : first = ofBytes bytes .free)
    (hd : d = first.run [.ask r]) :
    first.delivered [.ask r] = 1 ∧ d.delivers r = true ∧ (d.ask r).answer = replyOf line := by
  have hfree : first.outlet = .free := by rw [hfirst]; rfl
  have hsent := delivers_of_free hfree r
  have hagain : d.delivers r = true := by
    rw [hd]
    refine delivers_of_free ((outlet_ask first r).trans ?_) r
    rw [hfree]
    rfl
  have hunread : d.unread = line :: back := by
    rw [hd]
    refine (ask_of_delivers hsent).2.trans ?_
    rw [hfirst]
    show (nextAnswer (linesOf bytes)).2 = _
    rw [hlines, nextAnswer_blank hp, nextAnswer_spoken hq]
  refine ⟨?_, hagain, ?_⟩
  · rw [delivered, hsent]
    rfl
  · rw [(ask_of_delivers hagain).1, hunread, nextAnswer_spoken hline]

/-- A reply that names state 7. -/
def seven : String :=
  "\x7b\"messageType\":\"Step\",\"messageBody\":\x7b\"stateId\":7\x7d\x7d"

theorem toList_seven : seven.toList = (Exchange.answer.encode 7).chars := by decide

theorem trim_seven : Text.trim seven.toList = (Exchange.answer.encode 7).chars := by
  rw [toList_seven]
  decide

theorem not_isBlankLine_seven : ¬IsBlankLine (bytesOf seven) := by
  rw [isBlankLine_bytesOf, trim_seven]
  decide

theorem linesOf_seven : linesOf (bytesOf seven) = [bytesOf seven] := by
  have hplain := (Exchange.lawful_answer 7 (by decide) _ (.refl _)).1
  have hbody : newline ∉ bytesOf seven := by
    rw [bytesOf_eq, toList_seven]
    exact newline_not_mem_flatMap (Json.isVisible_of_mem_compact hplain)
  have hne : bytesOf seven ≠ [] := fun h => not_isBlankLine_seven (h ▸ by decide)
  exact (FirstLine.open hne hbody).linesOf_eq

theorem linesOf_seven_later :
    linesOf ([10, 255, 10] ++ bytesOf seven) = [[10], [255, 10], bytesOf seven] := by
  have hfirst : FirstLine ([10, 255, 10] ++ bytesOf seven) [10] ([255, 10] ++ bytesOf seven) :=
    @FirstLine.ended [] _ List.not_mem_nil
  have hsecond : FirstLine ([255, 10] ++ bytesOf seven) [255, 10] (bytesOf seven) :=
    @FirstLine.ended [255] _ (by decide)
  rw [hfirst.linesOf_eq, hsecond.linesOf_eq, linesOf_seven]

/-- A blank line and one that is no text come before a reply. The question
after the one that they are spent on gets it. -/
theorem keeps_place_garbled :
    let bytes := [10, 255, 10] ++ bytesOf seven
    let r : Report := ⟨[], [], []⟩
    let d := (ofBytes bytes .free).run [.ask r]
    d.delivers r = true ∧
      Served (linesOf bytes) 1 (d.ask r).answer (d.ask r).dialogue.unreadBytes ∧
        (d.ask r).answer = .ok 7 := by
  have hseven : replyOf (bytesOf seven) = .ok 7 := by
    rw [replyOf_bytesOf, trim_seven]
    exact answerOf_eq_ok.2 (Exchange.lawful_answer.faithful 7 (by decide)).1
  intro bytes r d
  have hlines : linesOf bytes = [[10], [255, 10], bytesOf seven] := linesOf_seven_later
  -- the bytes are not to be worked out: only their lines matter
  clear_value bytes
  obtain ⟨hone, hsent, hanswer⟩ := second_gets r hlines (by decide) (by decide)
    not_isBlankLine_seven rfl rfl
  obtain ⟨-, -, hserved, -⟩ := keeps_place bytes .free [.ask r] r
  rw [hone] at hserved
  exact ⟨hsent, (hserved hsent).1, hanswer.trans hseven⟩

end Dialogue

end SymbolicSearch
