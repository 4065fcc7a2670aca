import FableOs.Capability.Edit

namespace fable.capability

/-! What a record says, written and read back, and what the digits of a literal
are read as. -/

open fable.json fable.record List
open fable.sse (ascii)

section Literals

/-- The reading passes through one of the four numbers from 2^64 on that its test
    does not see, and goes on with what is left of it. -/
def Slips (v : Nat) (s : text_t) : Prop :=
  ∃ p q, s = p ++ q ∧ 2 ^ 64 ≤ decimal_value v p ∧ decimal_value v p < 2 ^ 64 + 4 ∧
    (arg_literal q (UInt64.ofNat (decimal_value v p))).isOk = true

/-- The digits are read as the number that they say, or refused when that does not
    fit 64 bits. -/
def Exact (s : text_t) (nparam step_no : Nat) : Prop :=
  if decimal_value 0 s < 2 ^ 64 then arg_parse s nparam step_no = .ok (.lit (UInt64.ofNat (decimal_value 0 s)))
  else (arg_parse s nparam step_no).isOk = false

variable {s : text_t} {c : UInt8} {v : UInt64}

theorem digit_toNat (h : is_digit c = true) : (c - 0x30).toNat = c.toNat - 0x30 ∧ c.toNat - 0x30 < 10 := by
  rw [is_digit, Bool.and_eq_true, decide_eq_true_eq, decide_eq_true_eq] at h
  have hhigh : c.toNat ≤ 0x39 := h.2
  refine ⟨UInt8.toNat_sub_of_le c 0x30 h.1, by omega⟩

theorem tenth_lt_iff : (0xFFFFFFFFFFFFFFFF / 10 : UInt64) < v ↔ 1844674407370955161 < v.toNat := UInt64.lt_iff_toNat_lt

theorem arg_literal_cons (h : is_digit c = true) : arg_literal (c :: s) v =
    if 1844674407370955161 < v.toNat then .error .large_literal
    else arg_literal s (UInt64.ofNat (v.toNat * 10 + (c.toNat - 0x30))) := by
  obtain ⟨hsub, -⟩ := digit_toNat h
  have hnext : v * 10 + (c - 0x30).toUInt64 = UInt64.ofNat (v.toNat * 10 + (c.toNat - 0x30)) := by
    rw [← hsub, ← UInt64.toNat_inj]
    simp [UInt64.toNat_add, UInt64.toNat_mul]
  rw [arg_literal, h, hnext]
  by_cases hlarge : 1844674407370955161 < v.toNat
  · rw [if_pos hlarge, refuse, if_neg (by decide), refuse, if_pos (tenth_lt_iff.mpr hlarge)]
    rfl
  · rw [if_neg hlarge, refuse, if_neg (by decide), refuse, if_neg (tenth_lt_iff.not.mpr hlarge)]
    rfl

/-- A literal below `2 ^ 64` is read exactly. -/
theorem arg_literal_exact (hdigits : ∀ c ∈ s, is_digit c = true) (hsmall : decimal_value v.toNat s < 2 ^ 64) :
    arg_literal s v = .ok (UInt64.ofNat (decimal_value v.toNat s)) := by
  induction s generalizing v with
  | nil => exact congrArg Except.ok UInt64.ofNat_toNat.symm
  | cons c s ih =>
    obtain ⟨hc, hs⟩ := forall_mem_cons.mp hdigits
    change decimal_value (v.toNat * 10 + (c.toNat - 0x30)) s < 2 ^ 64 at hsmall
    have hle := le_decimal_value (v.toNat * 10 + (c.toNat - 0x30)) s
    have hnext : (UInt64.ofNat (v.toNat * 10 + (c.toNat - 0x30))).toNat = v.toNat * 10 + (c.toNat - 0x30) :=
      UInt64.toNat_ofNat_of_lt' (lt_of_le_of_lt hle hsmall)
    rw [arg_literal_cons hc, if_neg (by omega), ih hs (by rwa [hnext]), hnext]
    rfl

/-- One more digit: whether the value wraps is decided digit by digit. -/
theorem slips_cons {v : Nat} (hv : v < 2 ^ 64) : Slips v (c :: s) ↔
    if v * 10 + (c.toNat - 0x30) < 2 ^ 64 then Slips (v * 10 + (c.toNat - 0x30)) s
    else v * 10 + (c.toNat - 0x30) < 2 ^ 64 + 4 ∧
      (arg_literal s (UInt64.ofNat (v * 10 + (c.toNat - 0x30)))).isOk = true := by
  have hfirst : Slips v (c :: s) ↔ Slips (v * 10 + (c.toNat - 0x30)) s := by
    constructor
    · rintro ⟨p, q, hsplit, hlow, hhigh, hok⟩
      cases p with
      | nil => exact absurd hlow (Nat.not_le_of_lt hv)
      | cons b p =>
        obtain ⟨rfl, rfl⟩ := cons.inj hsplit
        exact ⟨p, q, rfl, hlow, hhigh, hok⟩
    · rintro ⟨p, q, rfl, hlow, hhigh, hok⟩
      exact ⟨c :: p, q, rfl, hlow, hhigh, hok⟩
  rw [hfirst]
  split
  · exact Iff.rfl
  · rename_i hlarge
    constructor
    · rintro ⟨p, q, rfl, hlow, hhigh, hok⟩
      cases p with
      | nil => exact ⟨hhigh, hok⟩
      | cons b p =>
        have hle : (v * 10 + (c.toNat - 0x30)) * 10 + (b.toNat - 0x30) ≤ decimal_value (v * 10 + (c.toNat - 0x30)) (b :: p) :=
          le_decimal_value _ p
        omega
    · rintro ⟨hhigh, hok⟩
      exact ⟨[], s, rfl, Nat.le_of_not_lt hlarge, hhigh, hok⟩

/-- A number that does not fit is taken only when it slips through. -/
theorem isOk_arg_literal_iff (hdigits : ∀ c ∈ s, is_digit c = true) (hlarge : 2 ^ 64 ≤ decimal_value v.toNat s) :
    (arg_literal s v).isOk = true ↔ Slips v.toNat s := by
  induction s generalizing v with
  | nil => exact absurd hlarge (Nat.not_le_of_lt v.toNat_lt)
  | cons c s ih =>
    obtain ⟨hc, hs⟩ := forall_mem_cons.mp hdigits
    obtain ⟨-, hten⟩ := digit_toNat hc
    change 2 ^ 64 ≤ decimal_value (v.toNat * 10 + (c.toNat - 0x30)) s at hlarge
    rw [arg_literal_cons hc, slips_cons v.toNat_lt]
    by_cases hbig : 1844674407370955161 < v.toNat
    · rw [if_pos hbig, if_neg (by omega)]
      refine iff_of_false Bool.false_ne_true ?_
      rintro ⟨hlow, -⟩
      omega
    · rw [if_neg hbig]
      split
      · rename_i hfits
        have hnext := UInt64.toNat_ofNat_of_lt' hfits
        rw [← hnext] at hlarge
        rw [ih hs hlarge, hnext]
      · exact (and_iff_right (by omega)).symm

theorem arg_parse_digits (hne : s ≠ []) (hdigits : ∀ c ∈ s, is_digit c = true) (nparam step_no : Nat) :
    arg_parse s nparam step_no = (arg_literal s 0).map cap_arg_t.lit := by
  obtain ⟨c, s, rfl⟩ := exists_cons_of_ne_nil hne
  have hc := hdigits c mem_cons_self
  have hmark : ¬ (c = 0x24 ∨ c = 0x23) := by
    rintro (rfl | rfl)
    all_goals exact absurd hc (by decide)
  rw [arg_parse, if_neg hmark]
  cases arg_literal (c :: s) 0 with
  | error why | ok v => rfl

theorem decimal_value_le_append (p q : text_t) : decimal_value 0 p ≤ decimal_value 0 (p ++ q) := by
  rw [decimal_value, decimal_value, foldl_append]
  exact le_decimal_value _ q

/-- A literal is read as its value, or refused, unless it slips past the test. -/
theorem exact_iff (hne : s ≠ []) (hdigits : ∀ c ∈ s, is_digit c = true) (nparam step_no : Nat) :
    Exact s nparam step_no ↔ ¬ Slips 0 s := by
  rw [Exact, arg_parse_digits hne hdigits]
  split
  · rename_i hsmall
    rw [arg_literal_exact hdigits (v := 0) hsmall]
    refine iff_of_true rfl ?_
    rintro ⟨p, q, rfl, hlow, -, -⟩
    have hle := decimal_value_le_append p q
    omega
  · rename_i hlarge
    have hiff := isOk_arg_literal_iff (v := 0) hdigits (Nat.le_of_not_lt hlarge)
    have hzero : (0 : UInt64).toNat = 0 := rfl
    rw [hzero] at hiff
    rw [← hiff]
    cases arg_literal s 0 with
    | error why => exact iff_of_true rfl Bool.false_ne_true
    | ok v => exact iff_of_false Bool.noConfusion (not_not.mpr rfl)

end Literals

section Checked

variable {s : text_t} {c spec : cap_t} {caps : List cap_t} {src : List UInt8}

theorem word_ok_ok {good} {max : Nat} (hzero : good 0 = false) (h : word_ok good max s = .ok ()) : Holds max s := by
  rw [word_ok] at h
  split at h
  · cases h
  · rename_i hnone
    have hlen : s.length < max := Nat.lt_of_not_le (refuse_eq_ok_iff.mp h)
    rw [take_of_length_le hlen.le, findIdx?_eq_none_iff] at hnone
    exact holds_of_chars hzero hlen fun c hc => by simpa using hnone c hc

theorem holds_name (h : capability_name_ok s = .ok ()) : Holds CAP_NAME_MAX s := by
  cases s with
  | nil => cases h
  | cons c s =>
    obtain ⟨_, -, h⟩ := except_bind_eq_ok_iff.mp h
    exact word_ok_ok (by decide) h

theorem holds_doc (h : doc_ok s = .ok ()) : Holds CAP_DOC_MAX s := by
  obtain ⟨_, -, h⟩ := except_bind_eq_ok_iff.mp h
  exact word_ok_ok (by decide) h

theorem holds_param (h : param_name_ok s = .ok ()) : Holds CAP_PARAM_NAME_MAX s := by
  obtain ⟨_, -, h⟩ := except_bind_eq_ok_iff.mp h
  exact word_ok_ok (by decide) h

/-- What the checks of a save say about the texts of a composition. -/
structure Described (c : cap_t) : Prop where
  name : capability_name_ok c.name = .ok ()
  doc : doc_ok c.doc = .ok ()
  nparam : c.nparam ≤ CAP_MAX_PARAMS
  param : ∀ p ∈ c.param, param_name_ok p = .ok ()
  kind : c.kind = .compose
  nstep : ¬ (c.step.length < 1 ∨ CAP_MAX_STEPS < c.step.length)
  call : ∀ s ∈ c.step, capability_name_ok s.call = .ok ()

/-- What passes the checks has texts that fit. -/
theorem described_of_ok (h : save_checks caps spec src = .ok c) (hkind : c.kind = .compose) : Described c := by
  obtain ⟨hok, rfl⟩ := save_checks_iff.mp h
  have hsame := @same_stored caps spec src
  have hspec : spec.kind = .compose := hsame.kind.symm.trans hkind
  have hbody := hok.body
  rw [GoodBody, hspec, ← hsame.step hspec] at hbody
  have hnparam : (stored caps spec src).nparam = spec.nparam := congrArg length hsame.param
  refine ⟨hsame.name ▸ hok.name, hsame.doc ▸ hok.doc, hnparam ▸ hok.nparam, hsame.param ▸ hok.param, hkind, ?_,
    fun s hs => (hbody.2 s hs).1⟩
  exact fun hout => hout.elim (Nat.not_lt.mpr hbody.1.1) (Nat.not_lt.mpr hbody.1.2)

end Checked

section Ranges

/-- An argument that `arg_parse` takes in step `step_no`. -/
def InRange (nparam step_no : Nat) : cap_arg_t → Prop
  | .lit _ => True
  | .param idx => idx < nparam
  | .step idx => 1 ≤ idx ∧ idx < step_no

structure StepInRange (nparam step_no : Nat) (s : cap_step_t) : Prop where
  narg : s.narg ≤ CAP_MAX_PARAMS
  arg : ∀ a ∈ s.arg, InRange nparam step_no a
  guard : s.cmp ≠ .none → InRange nparam step_no s.lhs ∧ InRange nparam step_no s.rhs

/-- The version and the arguments are such as `record_parse` takes. -/
structure Readable (c : cap_t) : Prop where
  version : 1 ≤ c.version.toNat ∧ c.version.toNat ≤ 0x7FFFFFFF
  steps : ∀ i s, c.step[i]? = some s → StepInRange c.nparam (i + 1) s

variable {nparam step_no i : Nat} {a : cap_arg_t}

/-- An argument that parses is a literal, a parameter or an earlier result. -/
theorem inRange_of_parse {s} (hstep : 0 < step_no) (h : arg_parse s nparam step_no = .ok a) :
    InRange nparam step_no a := by
  cases s with
  | nil => cases h
  | cons mark rest =>
    rw [arg_parse] at h
    split at h
    · simp only [except_bind_eq_ok_iff] at h
      obtain ⟨⟨base, digits⟩, -, _, -, h⟩ := h
      split at h
      · simp only [except_bind_eq_ok_iff, refuse_eq_ok_iff] at h
        obtain ⟨_, hbase, h⟩ := h
        cases h
        exact Nat.lt_of_not_le hbase
      · simp only [except_bind_eq_ok_iff, refuse_eq_ok_iff] at h
        obtain ⟨_, hbase, h⟩ := h
        cases h
        rw [not_or, not_and] at hbase
        exact ⟨Nat.le_of_not_lt hbase.1, Nat.lt_of_not_le (hbase.2 hstep)⟩
    · simp only [except_bind_eq_ok_iff] at h
      obtain ⟨v, -, h⟩ := h
      cases h
      trivial

theorem inRange_of_arg_at {arr} {k : Nat} (hstep : 0 < step_no) (h : arg_at arr k nparam step_no = .ok a) :
    InRange nparam step_no a := by
  rw [arg_at] at h
  split at h
  · cases h
  · exact inRange_of_parse hstep (mapError_eq_ok_iff.mp h)

theorem guard_parse_ok {st cmp lhs rhs} (h : guard_parse st nparam i = .ok (cmp, lhs, rhs)) (hcmp : cmp ≠ .none) :
    InRange nparam (i + 1) lhs ∧ InRange nparam (i + 1) rhs := by
  simp only [guard_parse] at h
  split at h
  · obtain ⟨rfl, -⟩ := Prod.mk.inj (Except.ok.inj h)
    exact absurd rfl hcmp
  · simp only [except_bind_eq_ok_iff, mapError_eq_ok_iff] at h
    obtain ⟨_, -, lhs', hlhs, _, -, rhs', hrhs, h⟩ := h
    obtain ⟨-, h⟩ := Prod.mk.inj (Except.ok.inj h)
    cases h
    exact ⟨inRange_of_arg_at (Nat.succ_pos i) hlhs, inRange_of_arg_at (Nat.succ_pos i) hrhs⟩

theorem step_at_ok {arr s} (h : step_at arr nparam i = .ok s) : StepInRange nparam (i + 1) s := by
  simp only [step_at, except_bind_eq_ok_iff, refuse_eq_ok_iff] at h
  obtain ⟨_, -, _, hargs, arg, harg, ⟨cmp, lhs, rhs⟩, hguard, h⟩ := h
  cases h
  obtain ⟨hlen, hall⟩ := each_at_ok harg
  rw [not_or] at hargs
  refine ⟨?_, fun a ha => ?_, guard_parse_ok hguard⟩
  · change arg.length ≤ _
    rw [hlen]
    exact Nat.le_of_not_lt hargs.2
  · obtain ⟨k, hk⟩ := getElem?_of_mem ha
    exact inRange_of_arg_at (Nat.succ_pos i) (mapError_eq_ok_iff.mp (hall k a hk))

/-- Whatever file `record_parse` takes, what it makes of it is in range. -/
theorem readable_of_parse {file c src} (h : record_parse file = .ok (c, src)) (hkind : c.kind = .compose) :
    Readable c := by
  simp only [record_parse, except_bind_eq_ok_iff, refuse_eq_ok_iff, mapError_eq_ok_iff] at h
  obtain ⟨_, -, _, -, _, -, _, -, _, -, _, -, name, -, _, -, doc, -, _, -, ver, -, _, hver, _, -, kind, -, params, -, param, -,
    ⟨step, src'⟩, hbody, h⟩ := h
  obtain ⟨rfl, rfl⟩ := Prod.mk.inj (Except.ok.inj h)
  have hcompose : kind = .compose := hkind
  subst hcompose
  rw [not_or] at hver
  constructor
  · have hlt : ver.toNat < 2 ^ 32 := by omega
    rw [show (UInt32.ofNat ver.toNat).toNat = ver.toNat from UInt32.toNat_ofNat_of_lt' hlt]
    omega
  · intro i s hs
    rw [body_parse, if_neg (by decide)] at hbody
    simp only [except_bind_eq_ok_iff, mapError_eq_ok_iff] at hbody
    obtain ⟨arr, -, steps, hsteps, hbody⟩ := hbody
    obtain ⟨rfl, -⟩ := Prod.mk.inj (Except.ok.inj hbody)
    simp only [steps_parse, except_bind_eq_ok_iff] at hsteps
    obtain ⟨_, -, _, -, hsteps⟩ := hsteps
    have hstep := (each_at_ok hsteps).2 i s hs
    rw [Nat.zero_add] at hstep
    exact step_at_ok hstep

end Ranges

section Writing

variable {depth : Nat}

def text_item (t : text_t) : item_t := ⟨quoted t, IsString (zstr t)⟩

def arg_items (as : List cap_arg_t) : List item_t := as.map fun a => text_item (capability_arg_text a)

def guard_items (s : cap_step_t) : List item_t :=
  [text_item (capability_arg_text s.lhs), text_item (capability_cmp_text s.cmp), text_item (capability_arg_text s.rhs)]

def array_item (items : List item_t) : item_t := ⟨array_text items, IsArray items⟩

def step_members (s : cap_step_t) : List member_t :=
  ⟨text_item s.call, K_CALL, by decide⟩ :: ⟨array_item (arg_items s.arg), K_ARGS, by decide⟩ ::
    if s.cmp = .none then [] else [⟨array_item (guard_items s), K_WHEN, by decide⟩]

def step_item (s : cap_step_t) : item_t := ⟨object_text (step_members s), IsObject (step_members s)⟩

/-- The members of a composition's object, in the order of `record_write`. -/
def members (c : cap_t) : List member_t :=
  [⟨⟨[0x31], IsNumber 1⟩, K_CAP, by decide⟩,
   ⟨text_item c.name, K_NAME, by decide⟩,
   ⟨text_item c.doc, K_DOC, by decide⟩,
   ⟨⟨decimal c.version.toNat, IsNumber c.version.toNat⟩, K_VERSION, by decide⟩,
   ⟨⟨quoted COMPOSE.bytes, fun v => kind_parse v = some .compose⟩, K_KIND, by decide⟩,
   ⟨array_item (c.param.map text_item), K_PARAMS, by decide⟩,
   ⟨array_item (c.step.map step_item), K_STEPS, by decide⟩]

variable {c : cap_t}

theorem puts_key (lead : UInt8) (key : cstr_t) : Puts (fun w => json_put_key w lead key) (key_text lead key) := puts_n _

theorem puts_arg (a : cap_arg_t) : Puts (fun w => put_arg w a) (quoted (capability_arg_text a)) := puts_text _

theorem puts_step (s : cap_step_t) : Puts (fun w => put_step w s) (object_text (step_members s)) := by
  have hargs : (arg_items s.arg).map item_t.text = s.arg.map fun a => quoted (capability_arg_text a) := by
    rw [arg_items, map_map]
    rfl
  have hfront := ((((((puts_key OPEN_BRACE K_CALL).followed (puts_text s.call)).followed (puts_key COMMA K_ARGS)).followed
    (puts_char OPEN_BRACKET)).followed (puts_all puts_arg s.arg)).followed (puts_char CLOSE_BRACKET))
  by_cases hcmp : s.cmp = .none
  · have hall := hfront.followed (puts_char CLOSE_BRACE)
    simp only [put_step, put_guard, if_pos hcmp]
    refine (congrArg (Puts _) ?_).mp hall
    simp [object_text, step_members, hcmp, joined_cons_cons, joined_singleton, member_t.written, array_item, array_text,
      hargs, key_text, text_item]
  · have hall := (((((((hfront.followed (puts_key COMMA K_WHEN)).followed (puts_char OPEN_BRACKET)).followed
      (puts_arg s.lhs)).followed (puts_char COMMA)).followed (puts_text (capability_cmp_text s.cmp))).followed
      (puts_char COMMA)).followed (puts_arg s.rhs)).followed (puts_char CLOSE_BRACKET) |>.followed (puts_char CLOSE_BRACE)
    simp only [put_step, put_guard, if_neg hcmp]
    refine (congrArg (Puts _) ?_).mp hall
    simp [object_text, step_members, hcmp, joined_cons_cons, joined_singleton, member_t.written, array_item, array_text,
      hargs, key_text, text_item, guard_items]

/-- The record of a composed capability goes out as an object with its members. -/
theorem puts_record_json (hkind : c.kind = .compose) (src : List UInt8) :
    Puts (record_json c src) (object_text (members c)) := by
  have hversion : c.version.toNat < 10 ^ 20 := Nat.lt_trans c.version.toNat_lt (by decide)
  have hparams : (c.param.map text_item).map item_t.text = c.param.map quoted := by
    rw [map_map]
    rfl
  have hsteps : (c.step.map step_item).map item_t.text = c.step.map fun s => object_text (step_members s) := by
    rw [map_map]
    rfl
  have hhead := ((((((((puts_key OPEN_BRACE K_CAP).followed (@puts_uint CAP_FORMAT (by decide))).followed
    (puts_key COMMA K_NAME)).followed (puts_text c.name)).followed (puts_key COMMA K_DOC)).followed
    (puts_text c.doc)).followed (puts_key COMMA K_VERSION)).followed (puts_uint hversion)).followed (puts_key COMMA K_KIND)
  have hlists := (((((((hhead.followed (puts_string COMPOSE)).followed (puts_key COMMA K_PARAMS)).followed
    (puts_char OPEN_BRACKET)).followed (puts_all puts_text c.param)).followed (puts_char CLOSE_BRACKET)).followed
    (puts_key COMMA K_STEPS)).followed (puts_char OPEN_BRACKET)).followed (puts_all puts_step c.step)
  have hall := (hlists.followed (puts_char CLOSE_BRACKET)).followed (puts_char CLOSE_BRACE)
  have hone : decimal 1 = [0x31] := rfl
  have hcompose : zstr COMPOSE.bytes = COMPOSE.bytes := rfl
  unfold record_json
  simp only [hkind, if_true]
  refine (congrArg (Puts _) ?_).mp hall
  simp [object_text, members, joined_cons_cons, joined_singleton, member_t.written, array_item, array_text, hparams, hsteps,
    key_text, text_item, hone, hcompose, quoted]

theorem writes_kind : Writes (depth + 1) (quoted COMPOSE.bytes) fun v => kind_parse v = some .compose := by
  intro r
  obtain ⟨tree, hnode, hword⟩ := @writes_word depth COMPOSE.bytes r
  refine ⟨tree, hnode, ?_⟩
  change kind_parse tree.value = _
  rw [kind_parse, hword, hword, if_neg (by decide), if_pos (by decide)]

theorem writes_texts {items} (h : ∀ a ∈ items, ∃ t, a = text_item t) (hdepth : depth + 2 ≤ JSON_MAX_DEPTH) :
    Writes (depth + 2) (array_item items).text (array_item items).means := by
  refine writes_array (fun a ha => ?_) hdepth
  obtain ⟨t, rfl⟩ := h a ha
  exact writes_quoted t

theorem writes_step (s : cap_step_t) (hdepth : depth + 3 ≤ JSON_MAX_DEPTH) :
    Writes (depth + 3) (step_item s).text (step_item s).means := by
  refine @writes_object (depth + 2) (step_members s) (cons_ne_nil _ _) (fun m hm => ?_) hdepth
  have hargs : ∀ a ∈ arg_items s.arg, ∃ t, a = text_item t := fun a ha => by
    obtain ⟨b, -, rfl⟩ := mem_map.mp ha
    exact ⟨_, rfl⟩
  have hguard : ∀ a ∈ guard_items s, ∃ t, a = text_item t := fun a ha => by
    simp only [guard_items, mem_cons, not_mem_nil, or_false] at ha
    obtain rfl | rfl | rfl := ha
    all_goals exact ⟨_, rfl⟩
  rw [step_members] at hm
  obtain rfl | hm := mem_cons.mp hm
  · exact writes_quoted s.call
  obtain rfl | hm := mem_cons.mp hm
  · exact writes_texts hargs (by omega)
  · split at hm
    · cases hm
    · obtain rfl := mem_singleton.mp hm
      exact writes_texts hguard (by omega)

/-- That object is a JSON text with its members' meanings. -/
theorem writes_record (c : cap_t) : Writes JSON_MAX_DEPTH (object_text (members c)) (IsObject (members c)) := by
  have hversion : c.version.toNat < 2 ^ 63 := Nat.lt_trans c.version.toNat_lt (by decide)
  refine @writes_object (JSON_MAX_DEPTH - 1) (members c) (cons_ne_nil _ _) (fun m hm => ?_) (by decide)
  simp only [members, mem_cons, not_mem_nil, or_false] at hm
  obtain rfl | rfl | rfl | rfl | rfl | rfl | rfl := hm
  · exact @writes_decimal _ 1 (by decide)
  · exact writes_quoted c.name
  · exact writes_quoted c.doc
  · exact writes_decimal hversion
  · exact writes_kind
  · refine writes_texts (fun a ha => ?_) (by decide)
    obtain ⟨t, -, rfl⟩ := mem_map.mp ha
    exact ⟨t, rfl⟩
  · refine writes_array (fun a ha => ?_) (by decide)
    obtain ⟨s, -, rfl⟩ := mem_map.mp ha
    exact writes_step s (by decide)

theorem record_write_eq (hkind : c.kind = .compose) {src file} (h : record_write c src = some file) :
    file = stamped (object_text (members c)) := by
  simp only [record_write] at h
  split at h
  · rename_i hok
    have hover : (record_json c src (json_writer_init true (CAP_FILE_MAX - CAP_PREFIX_LEN))).overflow = false := by
      simpa [json_writer_ok] using hok
    obtain ⟨-, hpush⟩ := puts_record_json hkind src _ hover
    rw [hpush, push_text] at h
    exact (Option.some.inj h).symm
  · cases h

end Writing

section Reading

variable {c : cap_t} {s : cap_step_t} {a : cap_arg_t} {nparam step_no i : Nat}
variable {arr : json_value_t}

/-- A step without the operands of a guard that it does not have. -/
def cap_step_t.guarded (s : cap_step_t) : cap_step_t :=
  if s.cmp = .none then ⟨s.call, s.arg, .none, .lit 0, .lit 0⟩ else s

theorem small_index : ∀ n : Fin 10, 0 ∉ decimal n ∧ arg_index (decimal n) 0 0 = .ok (n.val, 1) := by decide +kernel

/-- The text of an argument that is in range fits its array, and is read as it. -/
theorem arg_parse_text (hnparam : nparam ≤ 10) (hstep : step_no ≤ 10) (h : InRange nparam step_no a) :
    Holds 24 (capability_arg_text a) ∧ arg_parse (capability_arg_text a) nparam step_no = .ok a := by
  cases a with
  | lit v =>
    obtain ⟨-, hne, hdigits, hvalue, -⟩ := @decimal_spec v.toNat (Nat.lt_trans v.toNat_lt (by decide))
    refine ⟨@holds_of_chars _ _ is_digit (by decide) (Nat.lt_of_le_of_lt (length_decimal_le _) (by decide)) hdigits, ?_⟩
    rw [capability_arg_text, arg_parse_digits hne hdigits, arg_literal_exact (v := 0) hdigits]
    · rw [show (0 : UInt64).toNat = 0 from rfl, hvalue, UInt64.ofNat_toNat]
      rfl
    · rw [show (0 : UInt64).toNat = 0 from rfl, hvalue]
      exact v.toNat_lt
  | param idx =>
    have hidx : idx < nparam := h
    obtain ⟨hzero, hindex⟩ := small_index ⟨idx, by omega⟩
    have hlen := length_decimal_le idx
    refine ⟨⟨by rw [capability_arg_text, length_cons]; omega, by simpa [capability_arg_text] using hzero⟩, ?_⟩
    simp [capability_arg_text, arg_parse, hindex, refuse, bind, Except.bind, pure, Except.pure, Nat.not_le_of_lt hidx]
  | step idx =>
    obtain ⟨hpos, hidx⟩ : 1 ≤ idx ∧ idx < step_no := h
    obtain ⟨hzero, hindex⟩ := small_index ⟨idx, by omega⟩
    have hlen := length_decimal_le idx
    have hgood : ¬ (idx < 1 ∨ (0 < step_no ∧ step_no ≤ idx)) := by omega
    refine ⟨⟨by rw [capability_arg_text, length_cons]; omega, by simpa [capability_arg_text] using hzero⟩, ?_⟩
    simp only [capability_arg_text, arg_parse, hindex, bind, Except.bind, refuse, if_neg hgood]
    rfl

/-- An argument's text is read back as the argument. -/
theorem arg_at_item {items} {k : Nat} (harr : IsArray items arr)
    (hk : items[k]? = some (text_item (capability_arg_text a))) (hnparam : nparam ≤ 10) (hstep : step_no ≤ 10)
    (h : InRange nparam step_no a) : arg_at arr k nparam step_no = .ok a := by
  obtain ⟨hholds, hparse⟩ := arg_parse_text hnparam hstep h
  rw [arg_at, string_at_of_element harr hk rfl hholds]
  exact mapError_eq_ok_iff.mpr hparse

theorem cmp_parse_text (cmp : cap_cmp_t) : Holds 8 (capability_cmp_text cmp) ∧ cmp_parse (capability_cmp_text cmp) = cmp := by
  cases cmp with
  | none | eq | ne | lt | le | gt | ge => exact ⟨⟨by decide, by decide⟩, by decide⟩

/-- A step's guard is read back. -/
theorem guard_parse_step {st} (hst : IsObject (step_members s) st) (hnparam : nparam ≤ 10) (hi : i < 10)
    (hrange : s.cmp ≠ .none → InRange nparam (i + 1) s.lhs ∧ InRange nparam (i + 1) s.rhs) :
    guard_parse st nparam i = .ok (s.guarded.cmp, s.guarded.lhs, s.guarded.rhs) := by
  by_cases hcmp : s.cmp = .none
  · have hnone : (step_members s).find? (fun m => m.key = K_WHEN) = none := by
      rw [step_members, if_pos hcmp]
      rfl
    have hget := hst.2 K_WHEN
    rw [hnone] at hget
    simp only [guard_parse, hget, cap_step_t.guarded, if_pos hcmp]
    rfl
  · have hsome : (step_members s).find? (fun m => m.key = K_WHEN) =
        some ⟨array_item (guard_items s), K_WHEN, by decide⟩ := by
      rw [step_members, if_neg hcmp]
      rfl
    obtain ⟨g, hget, hg⟩ := hst.get hsome
    have hg : IsArray (guard_items s) g := hg
    obtain ⟨hlhs, hrhs⟩ := hrange hcmp
    have hleft := arg_at_item (k := 0) hg rfl hnparam (Nat.succ_le_of_lt hi) hlhs
    have hright := arg_at_item (k := 2) hg rfl hnparam (Nat.succ_le_of_lt hi) hrhs
    obtain ⟨hholds, hparse⟩ := cmp_parse_text s.cmp
    have hop := string_at_of_element (i := 1) hg rfl rfl hholds
    have hshape : ¬ (g.type ≠ .array ∨ json_count (some g) ≠ 3) := by
      rw [not_or, not_not, not_not]
      exact ⟨hg.1, hg.2.1⟩
    simp only [guard_parse, hget, hleft, hright, hop, hparse, refuse, if_neg hshape, Option.map_some, Option.getD_some,
      if_neg hcmp, cap_step_t.guarded, bind, Except.bind, Except.mapError]
    rfl

/-- A step is read back. -/
theorem step_at_step {steps : List cap_step_t} (harr : IsArray (steps.map step_item) arr) (hs : steps[i]? = some s)
    (hcall : capability_name_ok s.call = .ok ()) (hnparam : nparam ≤ 10) (hi : i < 10)
    (hrange : StepInRange nparam (i + 1) s) : step_at arr nparam i = .ok s.guarded := by
  obtain ⟨st, hat, hst⟩ := harr.2.2 i (step_item s) (by rw [getElem?_map, hs]; rfl)
  have hst : IsObject (step_members s) st := hst
  have hholds := holds_name hcall
  obtain ⟨call, hget, hval⟩ := @IsObject.get _ K_CALL _ st hst rfl
  have hval : IsString (zstr s.call) call := hval
  rw [zstr_eq hholds.2] at hval
  have hstr : json_get_str (some st) (some K_CALL) CAP_NAME_MAX = (JSON_OK, s.call) := by
    rw [json_get_str, hget]
    exact hval.2 CAP_NAME_MAX hholds.1
  obtain ⟨args, hargs, harray⟩ := @IsObject.get _ K_ARGS _ st hst rfl
  have harray : IsArray (arg_items s.arg) args := harray
  have hcount : json_count (some args) = s.narg := by rw [harray.2.1, arg_items, length_map]
  have heach : each_at (fun k => (arg_at args k nparam (i + 1)).mapError (list_why_t.step_arg (i + 1) (k + 1))) s.narg 0 =
      .ok s.arg := by
    refine each_at_eq fun k a hk => ?_
    rw [Nat.zero_add]
    refine mapError_eq_ok_iff.mpr (arg_at_item harray ?_ hnparam (Nat.succ_le_of_lt hi)
      (hrange.arg a (mem_of_getElem? hk)))
    rw [arg_items, getElem?_map, hk]
    rfl
  have hguard := guard_parse_step hst hnparam hi hrange.guard
  have hno : ¬ CAP_MAX_PARAMS < s.narg := Nat.not_lt.mpr hrange.narg
  have hshape : s.guarded = ⟨s.call, s.arg, s.guarded.cmp, s.guarded.lhs, s.guarded.rhs⟩ := by
    rw [cap_step_t.guarded]
    split
    all_goals rfl
  simp only [step_at, hat, hstr, hargs, zstr_eq hholds.2, hcall, hst.1, hcount, harray.1, heach, hguard, refuse,
    bind, Except.bind, Except.isOk, Except.toBool, hno, ne_eq, not_true_eq_false, and_false, or_false, if_false,
    Bool.true_eq_false]
  rw [hshape]
  rfl

theorem params_parse_items (harr : IsArray (c.param.map text_item) arr)
    (hparam : ∀ p ∈ c.param, param_name_ok p = .ok ()) (hnparam : c.nparam ≤ CAP_MAX_PARAMS) :
    params_parse arr = .ok c.param := by
  have hcount : json_count (some arr) = c.nparam := by rw [harr.2.1, length_map]
  have heach : each_at (param_at arr) c.nparam 0 = .ok c.param := by
    refine each_at_eq fun k p hk => ?_
    have hok := hparam p (mem_of_getElem? hk)
    rw [Nat.zero_add, param_at, string_at_of_element harr (by rw [getElem?_map, hk]; rfl) rfl (holds_param hok)]
    simp only [hok]
  rw [params_parse, refuse, if_neg (not_not.mpr harr.1), hcount, refuse, if_neg (Nat.not_lt.mpr hnparam)]
  exact heach

/-- The steps of a capability are read back in order. -/
theorem body_parse_object {root : json_value_t} (hc : Described c) (hsteps : ∀ i s, c.step[i]? = some s →
    StepInRange c.nparam (i + 1) s) (hroot : IsObject (members c) root) :
    body_parse root .compose c.nparam = .ok (c.step.map cap_step_t.guarded, []) := by
  obtain ⟨arr, hvalue, harr⟩ := @value_at_of_member _ root K_STEPS _ hroot rfl
  have harr : IsArray (c.step.map step_item) arr := harr
  have hcount : json_count (some arr) = (c.step.map cap_step_t.guarded).length := by
    rw [harr.2.1, length_map, length_map]
  have hnstep : c.step.length ≤ 6 := Nat.le_of_not_lt fun h => hc.nstep (.inr h)
  have hnparam : c.nparam ≤ 10 := hc.nparam.trans (by decide)
  have heach : each_at (step_at arr c.nparam) (c.step.map cap_step_t.guarded).length 0 =
      .ok (c.step.map cap_step_t.guarded) := by
    refine each_at_eq fun k s' hk => ?_
    rw [getElem?_map] at hk
    obtain ⟨s, hs, rfl⟩ := Option.map_eq_some_iff.mp hk
    have hlt : k < c.step.length := (List.getElem?_eq_some_iff.mp hs).1
    rw [Nat.zero_add]
    exact step_at_step harr hs (hc.call s (mem_of_getElem? hs)) hnparam (by omega) (hsteps k s hs)
  have hparse : steps_parse arr c.nparam = .ok (c.step.map cap_step_t.guarded) := by
    have hnstep' : ¬ ((c.step.map cap_step_t.guarded).length < 1 ∨
        CAP_MAX_STEPS < (c.step.map cap_step_t.guarded).length) := by
      rw [length_map]
      exact hc.nstep
    simp only [steps_parse, harr.1, hcount, refuse, ne_eq, not_true_eq_false, if_false, if_neg hnstep', bind, Except.bind]
    exact heach
  rw [body_parse, if_neg (by decide), hvalue]
  simp only [ensure, bind, Except.bind, hparse, Except.mapError]
  rfl

/-- The record reads back as what was written. -/
def ReadsBack (c : cap_t) (file : List UInt8) : Prop :=
  ∃ c' src, record_parse file = .ok (c', src) ∧ c'.name = c.name ∧ c'.doc = c.doc ∧ c'.version = c.version ∧
    c'.kind = c.kind ∧ c'.param = c.param ∧ c'.step = c.step.map cap_step_t.guarded

theorem record_parse_object (hc : Described c) (h : Readable c) : ReadsBack c (stamped (object_text (members c))) := by
  obtain ⟨root, hparse, hroot⟩ := @Writes.parse _ [] _ (writes_record c) nil_mem_ws
  rw [append_nil] at hparse
  have hheader : get_hex16 (stamped (object_text (members c))) = some (Digest.fnv1a (object_text (members c))) := by
    rw [get_hex16, take_stamped, Digest.unhexes_hexes_toNat]
    exact congrArg some UInt64.ofNat_toNat
  have hlen : ¬ (stamped (object_text (members c))).length < CAP_PREFIX_LEN + 2 := by
    rw [length_stamped, object_text, length_cons, length_append, length_singleton]
    change ¬ _ < 19
    omega
  have hdrop : (stamped (object_text (members c))).drop CAP_PREFIX_LEN = object_text (members c) := drop_stamped
  have hline : (stamped (object_text (members c))).getD CAP_HASH_HEX 0 = 0x0A := getD_stamped
  have hname_at := @text_at_of_member _ root K_NAME _ c.name CAP_NAME_MAX hroot rfl rfl (holds_name hc.name)
  have hdoc_at := @text_at_of_member _ root K_DOC _ c.doc CAP_DOC_MAX hroot rfl rfl (holds_doc hc.doc)
  have hfmt := @int_at_of_member _ root K_CAP _ 1 hroot rfl rfl
  have hversion := @int_at_of_member _ root K_VERSION _ c.version.toNat hroot rfl rfl
  obtain ⟨kind, hkind_at, hkind⟩ := @value_at_of_member _ root K_KIND _ hroot rfl
  have hkind : kind_parse kind = some .compose := hkind
  obtain ⟨arr, hparams_at, harr⟩ := @value_at_of_member _ root K_PARAMS _ hroot rfl
  have hparams := params_parse_items harr hc.param hc.nparam
  have hbody := body_parse_object hc h.steps hroot
  have hrange : ¬ ((c.version.toNat : Int) < 1 ∨ 0x7FFFFFFF < (c.version.toNat : Int)) := by
    have := h.version
    omega
  refine ⟨⟨c.name, c.doc, c.version, .compose, c.param, c.step.map cap_step_t.guarded, 0, 0,
    Digest.fnv1a (object_text (members c)), 0, 0, false, false⟩, [], ?_, rfl, rfl, rfl, hc.kind.symm, rfl, rfl⟩
  simp only [record_parse, hheader, hdrop, hline, hparse, hroot.1, hname_at, hdoc_at, hfmt, hversion, hkind_at, hkind,
    hparams_at, hparams, hbody, hc.name, hc.doc, ensure, refuse, bind, Except.bind, Except.mapError, Except.isOk,
    Except.toBool, hlen, hrange, ne_eq, not_true_eq_false, or_self, if_false, Option.getD_some, Nat.cast_one,
    Bool.true_eq_false, Int.toNat_natCast, UInt32.ofNat_toNat]
  rfl

/-- A record is read back exactly when its version and its arguments are readable. -/
theorem readsBack_iff {caps spec src file} (hsave : save_checks caps spec src = .ok c)
    (hkind : c.kind = .compose) (hwrite : record_write c src = some file) : ReadsBack c file ↔ Readable c := by
  constructor
  · rintro ⟨c', src', hparse, -, -, hversion, hkind', hparam, hstep⟩
    obtain ⟨hver, hsteps⟩ := readable_of_parse hparse (hkind'.trans hkind)
    refine ⟨hversion ▸ hver, fun i s hs => ?_⟩
    have hrange := hsteps i s.guarded (by rw [hstep, getElem?_map, hs]; rfl)
    rw [cap_t.nparam, hparam] at hrange
    rw [cap_step_t.guarded] at hrange
    split at hrange
    · rename_i hnone
      exact ⟨hrange.narg, hrange.arg, fun hcmp => absurd hnone hcmp⟩
    · exact hrange
  · intro hreadable
    rw [record_write_eq hkind hwrite]
    exact record_parse_object (described_of_ok hsave hkind) hreadable

/-- A composition that `capability_save` accepts reads back as it was written
    exactly when its version and the indices of its arguments are such as
    `record_parse` takes. A literal is read as its number, or refused when that
    does not fit, exactly when it does not slip through the overflow test. -/
theorem records_and_literals_iff {caps : List cap_t} {spec c : cap_t} {src file : List UInt8}
    (hsave : save_checks caps spec src = .ok c) (hkind : c.kind = .compose) (hwrite : record_write c src = some file)
    (s : text_t) (nparam step_no : Nat) (hne : s ≠ []) (hdigits : ∀ d ∈ s, is_digit d = true) :
    (ReadsBack c file ↔ Readable c) ∧ (Exact s nparam step_no ↔ ¬ Slips 0 s) :=
  ⟨readsBack_iff hsave hkind hwrite, exact_iff hne hdigits nparam step_no⟩

/-- Two steps with a parameter: the first calls the composition again while the
    parameter is below 7, the second with what the first has given. -/
def counting : cap_t :=
  ⟨[0x61], [0x64], 1, .compose, [[0x70]],
    [⟨[0x61], [.param 0], .lt, .param 0, .lit 7⟩, ⟨[0x61], [.step 1], .none, .lit 0, .lit 0⟩], 0, 0, 0, 0, 0, false, false⟩

theorem readable_counting : Readable counting := by
  refine ⟨by decide, fun i s hs => ?_⟩
  match i with
  | 0 =>
    obtain rfl := Option.some.inj hs
    exact ⟨by decide, fun a ha => by rw [mem_singleton.mp ha]; exact Nat.one_pos, fun _ => ⟨Nat.one_pos, trivial⟩⟩
  | 1 =>
    obtain rfl := Option.some.inj hs
    exact ⟨by decide, fun a ha => by rw [mem_singleton.mp ha]; exact ⟨le_rfl, Nat.one_lt_two⟩,
      fun hcmp => absurd rfl hcmp⟩
  | i + 2 => cases hs

/-- It reads back, and so does the literal 7. -/
theorem counting_reads_back :
    (∃ file, save_checks [] counting [] = .ok counting ∧ record_write counting [] = some file ∧
      ReadsBack counting file) ∧ Exact [0x37] 1 1 := by
  have hwrite : ∃ file, record_write counting [] = some file := Option.isSome_iff_exists.mp (by decide +kernel)
  obtain ⟨file, hfile⟩ := hwrite
  have hsave : save_checks [] counting [] = .ok counting := by decide +kernel
  have hdigit : ∀ d ∈ ([0x37] : text_t), is_digit d = true := fun d hd => by
    rw [mem_singleton.mp hd]
    rfl
  obtain ⟨hrecord, hliteral⟩ := records_and_literals_iff hsave rfl hfile [0x37] 1 1 (cons_ne_nil _ _) hdigit
  refine ⟨⟨file, hsave, hfile, hrecord.mpr readable_counting⟩, hliteral.mpr ?_⟩
  rintro ⟨p, q, hsplit, hlow, -⟩
  have hle := decimal_value_le_append p q
  rw [← hsplit] at hle
  exact absurd (hlow.trans hle) (by decide)

/-- 2^64 -/
def overflowing : text_t :=
  ascii ['1', '8', '4', '4', '6', '7', '4', '4', '0', '7', '3', '7', '0', '9', '5', '5', '1', '6', '1', '6']

/-- The composition with an argument that names a parameter which it does not have. -/
def stray_param : cap_t :=
  ⟨[0x61], [0x64], 1, .compose, [[0x70]], [⟨[0x61], [.param 1], .none, .lit 0, .lit 0⟩], 0, 0, 0, 0, 0, false, false⟩

/-- 2^64 is read as 0, and a save accepts an index that its record is refused for. -/
theorem overflow_read_as_zero : decimal_value 0 overflowing = 2 ^ 64 ∧ arg_parse overflowing 0 1 = .ok (.lit 0) ∧
    save_checks [] stray_param [] = .ok stray_param ∧
    (record_write stray_param []).map (fun file => (record_parse file).isOk) = some false := by
  refine ⟨by decide +kernel, by decide +kernel, by decide +kernel, by decide +kernel⟩

end Reading

end fable.capability
