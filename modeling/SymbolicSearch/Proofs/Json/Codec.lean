/-
What a codec writes it reads, in whatever order the members of the objects
come (`Codec.Lawful`). The law is shown once for each way of putting codecs
together, so the codec of a record has it as soon as those of its fields do.

# Records

A record is written member by member. On reading, each member is looked for
by its name; as names differ, it is found wherever it stands
(`slot?_of_mem`), and the values found are those of the fields in their own
order (`slots?_of_perm`).
-/
import Mathlib.Data.List.Nodup
import SymbolicSearch.Json.Codec
import SymbolicSearch.Proofs.Json.Tree

namespace SymbolicSearch.Json

variable {α β : Type}

/-- Values that fit are read back from all that their writing can be
reordered to, and can be written as a text. -/
def Codec.Lawful (c : Codec α) (fits : α → Prop) : Prop :=
  ∀ a, fits a → ∀ j, Reordered (c.encode a) j → j.IsPlain ∧ c.decode? j = some a

/-- Values that fit are read back from every text that differs from their own
in blanks and in the order of members only. -/
def Codec.Faithful (c : Codec α) (fits : α → Prop) : Prop :=
  ∀ a, fits a → (parse? (c.encode a).chars).bind c.decode? = some a ∧
    ∀ j text, Reordered (c.encode a) j → Spaced j.tokens text →
      (parse? text).bind c.decode? = some a

theorem Codec.Lawful.faithful {c : Codec α} {fits : α → Prop} (h : c.Lawful fits) :
    c.Faithful fits := by
  have hspaced : ∀ a, fits a → ∀ j text, Reordered (c.encode a) j → Spaced j.tokens text →
      (parse? text).bind c.decode? = some a := by
    intro a ha j text hj htext
    obtain ⟨hplain, hdecode⟩ := h a ha j hj
    rw [parse?_of_spaced hplain htext]
    exact hdecode
  exact fun a ha => ⟨hspaced a ha _ _ (.refl _) (spaced_compact _), hspaced a ha⟩

namespace Codec

variable {c : Codec α} {fits : α → Prop}

-- ============================================================= single values

theorem lawful_natBelow (bound : Nat) : (natBelow bound).Lawful (· < bound) := by
  intro n hn j hj
  cases hj with
  | number => exact ⟨rfl, by simp [natBelow, Numeral.nat?, Numeral.ofNat, Numeral.isPlain, hn]⟩

theorem lawful_nat32 : nat32.Lawful (· < UInt32.size) := lawful_natBelow UInt32.size

theorem lawful_nat64 : nat64.Lawful (· < UInt64.size) := lawful_natBelow UInt64.size

/-- A signed integer of 64 bits. -/
def FitsInt64 (i : Int) : Prop := -(Numeral.signBound : Int) ≤ i ∧ i < Numeral.signBound

theorem lawful_int64 : int64.Lawful FitsInt64 := by
  intro i hi j hj
  cases hj with
  | number =>
      refine ⟨rfl, ?_⟩
      obtain ⟨hlow, hhigh⟩ := hi
      show (Numeral.ofInt i).int? = some i
      have hplain : ¬ (!(Numeral.ofInt i).isPlain) = true := Bool.false_ne_true
      have hnegative : (Numeral.ofInt i).negative = decide (i < 0) := rfl
      have hwhole : (Numeral.ofInt i).whole = i.natAbs := rfl
      rw [Numeral.int?, if_neg hplain, hnegative]
      by_cases hneg : i < 0
      · rw [if_pos (decide_eq_true hneg), if_pos (by omega)]
        exact congrArg some (by omega)
      · rw [if_neg (by simpa using hneg), if_pos (by omega)]
        exact congrArg some (by omega)

theorem lawful_bool : bool.Lawful fun _ => True := by
  intro b _ j hj
  cases hj with
  | bool => exact ⟨trivial, rfl⟩

theorem lawful_string : string.Lawful fun _ => True := by
  intro s _ j hj
  cases hj with
  | string => exact ⟨rfl, rfl⟩

theorem eq_null_of_reordered {v : Json} (h : Reordered v .null) : v = .null := by
  cases h with
  | null => rfl

theorem Lawful.option (h : c.Lawful fits) (hnull : ∀ a, c.encode a ≠ .null) :
    c.option.Lawful fun o => ∀ a ∈ o, fits a := by
  intro o ho j hj
  cases o with
  | none =>
      cases hj with
      | null => exact ⟨trivial, rfl⟩
  | some a =>
      obtain ⟨hplain, hdecode⟩ := h a (ho a rfl) j hj
      refine ⟨hplain, ?_⟩
      cases j with
      | null => exact absurd (eq_null_of_reordered hj) (hnull a)
      | _ => exact congrArg (Option.map some) hdecode

theorem Lawful.list (h : c.Lawful fits) : (list c).Lawful fun l => ∀ a ∈ l, fits a := by
  intro l hl j hj
  cases hj with
  | @array _ items' hitems =>
      suffices hall : (∀ j ∈ items', j.IsPlain) ∧ items'.mapM c.decode? = some l from
        ⟨(arePlain_iff items').2 hall.1, hall.2⟩
      induction l generalizing items' with
      | nil =>
          obtain rfl := List.forall₂_nil_left_iff.1 hitems
          exact ⟨fun j hj => absurd hj List.not_mem_nil, rfl⟩
      | cons a l ih =>
          obtain ⟨ha, hl⟩ := List.forall_mem_cons.1 hl
          obtain ⟨j, rest, hj, hrest, rfl⟩ := List.forall₂_cons_left_iff.1 hitems
          obtain ⟨hplain, hdecode⟩ := h a ha j hj
          obtain ⟨hplains, hdecodes⟩ := ih hl hrest
          refine ⟨List.forall_mem_cons.2 ⟨hplain, hplains⟩, ?_⟩
          rw [List.mapM_cons, hdecode, hdecodes]
          rfl

theorem Lawful.via (h : c.Lawful fits) {out : β → α} {back : α → β} {fits' : β → Prop}
    (hback : ∀ b, fits' b → fits (out b) ∧ back (out b) = b) : (c.via out back).Lawful fits' := by
  intro b hb j hj
  obtain ⟨hfits, heq⟩ := hback b hb
  obtain ⟨hplain, hdecode⟩ := h (out b) hfits j hj
  refine ⟨hplain, ?_⟩
  show (c.decode? j).map back = some b
  rw [hdecode, Option.map_some, heq]

theorem Lawful.idSet {c : Codec Nat} {fits : Nat → Prop} (h : c.Lawful fits) :
    (idSet c).Lawful fun s => ∀ n ∈ s, fits n :=
  h.list.via fun s hs => ⟨hs, IdSet.ofList_toList s⟩

/-- Each value is found under its own name. -/
theorem lawful_choice [DecidableEq α] {names : List (α × String)}
    (hnames : ∀ a, (names.find? (·.2 = (names.lookup a).getD "")).map Prod.fst = some a) :
    (choice names).Lawful fun _ => True := by
  intro a _ j hj
  cases hj with
  | string => exact ⟨rfl, hnames a⟩

end Codec

-- =================================================================== records

/-- A member is found by its name wherever it stands. -/
theorem slot?_of_mem {members : List (Option String × Json)}
    (hkeys : (members.map Prod.fst).Nodup) {name : String} {j : Json}
    (hmem : (some name, j) ∈ members) : slot? members name = some (some j) := by
  suffices hfilter : members.filter (·.1 = some name) = [(some name, j)] by
    rw [slot?, hfilter]
  induction members with
  | nil => exact absurd hmem List.not_mem_nil
  | cons m rest ih =>
      obtain ⟨hm, hrest⟩ := List.nodup_cons.1 hkeys
      rcases List.mem_cons.1 hmem with rfl | hmem
      · have hnone : rest.filter (·.1 = some name) = [] := by
          refine List.filter_eq_nil_iff.2 fun x hx hname => hm ?_
          exact List.mem_map.2 ⟨x, hx, of_decide_eq_true hname⟩
        rw [List.filter_cons_of_pos (by simp), hnone]
      · have hne : m.1 ≠ some name := fun h => hm (h ▸ List.mem_map_of_mem hmem)
        rw [List.filter_cons_of_neg (by simpa using hne)]
        exact ih hrest hmem

/-- The keys of an object that is written. -/
theorem map_fst_members {names : List String} {values : List Json}
    (h : values.length = names.length) :
    ((names.zip values).map fun m => (some m.1, m.2)).map Prod.fst = names.map some := by
  calc ((names.zip values).map fun m => (some m.1, m.2)).map Prod.fst
      = ((names.zip values).map Prod.fst).map some := by rw [List.map_map, List.map_map]; rfl
    _ = names.map some := by rw [List.map_fst_zip (Nat.le_of_eq h.symm)]

/-- The values of an object that is written. -/
theorem map_snd_members {names : List String} {values : List Json}
    (h : values.length = names.length) :
    ((names.zip values).map fun m => (some m.1, m.2)).map Prod.snd = values := by
  rw [List.map_map]
  exact List.map_snd_zip (Nat.le_of_eq h)

/-- The members with some names, found one by one. -/
theorem mapM_slot? {members : List (Option String × Json)}
    (hkeys : (members.map Prod.fst).Nodup) {names : List String}
    {part : List (Option String × Json)} (hpart : ∀ m ∈ part, m ∈ members)
    (hnames : part.map Prod.fst = names.map some) :
    names.mapM (slot? members) = some ((part.map Prod.snd).map some) := by
  induction names generalizing part with
  | nil =>
      obtain rfl := List.map_eq_nil_iff.1 hnames
      rfl
  | cons name names ih =>
      cases part with
      | nil => cases hnames
      | cons m part =>
          obtain ⟨k, j⟩ := m
          obtain ⟨hname, hrest⟩ := List.cons.inj hnames
          obtain rfl : k = some name := hname
          obtain ⟨hm, hpart⟩ := List.forall_mem_cons.1 hpart
          rw [List.mapM_cons, slot?_of_mem hkeys hm, ih hpart hrest]
          rfl

/-- The values of a record's fields are found in the order of the fields. -/
theorem slots?_of_perm {members middle : List (Option String × Json)}
    (hperm : members.Perm middle) {names : List String}
    (hkeys : middle.map Prod.fst = names.map some) (hnames : names.Nodup) (short : Bool) :
    slots? names short (.object members) = some ((middle.map Prod.snd).map some) := by
  have hnodup : (members.map Prod.fst).Nodup := by
    rw [(hperm.map Prod.fst).nodup_iff, hkeys]
    exact List.Nodup.map (Option.some_injective String) hnames
  have hsome : members.all (·.1.isSome) = true := by
    refine List.all_eq_true.2 fun m hm => ?_
    have hkey : m.1 ∈ names.map some := hkeys ▸ List.mem_map_of_mem (hperm.mem_iff.1 hm)
    obtain ⟨name, -, hname⟩ := List.mem_map.1 hkey
    rw [← hname]
    rfl
  rw [slots?, if_pos hsome]
  exact mapM_slot? hnodup (fun m hm => hperm.mem_iff.2 hm) hkeys

namespace Fields

/-- What the fields write is read back, given in their own order. -/
structure Lawful (fs : Fields α) (fits : α → Prop) : Prop where
  length : ∀ v, (fs.encode v).length = fs.names.length
  reads : ∀ v, fits v → ∀ js, List.Forall₂ Reordered (fs.encode v) js →
    (∀ j ∈ js, j.IsPlain) ∧ fs.decode? (js.map some) = some v

theorem lawful_done : done.Lawful fun _ => True := by
  refine ⟨fun _ => rfl, fun v _ js hjs => ?_⟩
  obtain rfl := List.forall₂_nil_left_iff.1 hjs
  exact ⟨fun j hj => absurd hj List.not_mem_nil, rfl⟩

theorem Lawful.cons {f : Field α} {fits : α → Prop} (hf : f.codec.Lawful fits) {fs : Fields β}
    {fits' : β → Prop} (hfs : fs.Lawful fits') :
    (cons f fs).Lawful fun v => fits v.1 ∧ fits' v.2 := by
  refine ⟨fun v => congrArg (· + 1) (hfs.length v.2), fun v hv js hjs => ?_⟩
  obtain ⟨j, rest, hj, hrest, rfl⟩ := List.forall₂_cons_left_iff.1 hjs
  obtain ⟨hplain, hdecode⟩ := hf v.1 hv.1 j hj
  obtain ⟨hplains, hdecodes⟩ := hfs.reads v.2 hv.2 rest hrest
  refine ⟨List.forall_mem_cons.2 ⟨hplain, hplains⟩, ?_⟩
  show (f.codec.decode? j).bind
    (fun a => (fs.decode? (rest.map some)).bind fun b => some (a, b)) = _
  rw [hdecode, hdecodes]
  rfl

/-- A record is read back with its members in any order. -/
theorem Lawful.record {fs : Fields α} {fits : α → Prop} (h : fs.Lawful fits)
    (hnames : fs.names.Nodup) (short : Bool) : (fs.record short).Lawful fits := by
  intro v hv j hj
  have hlength := h.length v
  cases hj with
  | @object _ middle members hkeys hvalues hperm =>
      rw [map_fst_members hlength] at hkeys
      rw [map_snd_members hlength] at hvalues
      obtain ⟨hplain, hdecode⟩ := h.reads v hv _ hvalues
      refine ⟨(membersArePlain_iff members).2 fun m hm => ?_, ?_⟩
      · have hmem := hperm.mem_iff.1 hm
        have hkey : m.1 ∈ fs.names.map some := hkeys ▸ List.mem_map_of_mem hmem
        obtain ⟨name, -, hname⟩ := List.mem_map.1 hkey
        exact ⟨hname ▸ rfl, hplain m.2 (List.mem_map_of_mem hmem)⟩
      · show (slots? fs.names short (.object members)).bind fs.decode? = some v
        rw [slots?_of_perm hperm hkeys hnames short]
        exact hdecode

theorem Lawful.whole {fs : Fields α} {fits : α → Prop} (h : fs.Lawful fits)
    (hnames : fs.names.Nodup) : fs.whole.Lawful fits := h.record hnames false

end Fields

-- ================================================================== messages

/-- A message is read back whether its type comes first or its body, as long
as the body can wait. -/
theorem lawful_message {c : Codec α} {fits : α → Prop} (h : c.Lawful fits)
    {typeKey bodyKey : String} (hne : typeKey ≠ bodyKey)
    (hwait : ∀ a, fits a → ∀ j, Reordered (c.encode a) j → canWait j = true) (name : String) :
    (Codec.message typeKey bodyKey name c).Lawful fits := by
  intro a ha j hj
  obtain ⟨members, type, body, rfl, hperm, htype, hbody⟩ := Reordered.pair hj
  obtain ⟨hplain, hdecode⟩ := h a ha body hbody
  have htype : type = .str name := by
    cases htype with
    | string => rfl
  subst htype
  have hmem : ∀ m, m ∈ members ↔ m = (some typeKey, .str name) ∨ m = (some bodyKey, body) := by
    intro m
    rw [hperm.mem_iff, List.mem_cons, List.mem_singleton]
  have hkeys : (members.map Prod.fst).Nodup := by
    rw [(hperm.map Prod.fst).nodup_iff]
    simpa using hne
  have hsome : members.all (·.1.isSome) = true := by
    refine List.all_eq_true.2 fun m hm => ?_
    rcases (hmem m).1 hm with rfl | rfl <;> rfl
  refine ⟨(membersArePlain_iff members).2 fun m hm => ?_, ?_⟩
  · rcases (hmem m).1 hm with rfl | rfl
    · exact ⟨rfl, rfl⟩
    · exact ⟨rfl, hplain⟩
  · have hread : message? typeKey bodyKey (.object members) = some (name, body) := by
      rw [message?, if_pos hsome, slot?_of_mem hkeys ((hmem _).2 (Or.inl rfl)),
        slot?_of_mem hkeys ((hmem _).2 (Or.inr rfl))]
      exact if_pos (Bool.or_eq_true_iff.2 (Or.inr (hwait a ha body hbody)))
    show (message? typeKey bodyKey (.object members)).bind _ = some a
    rw [hread]
    exact (if_pos rfl).trans hdecode

end SymbolicSearch.Json
