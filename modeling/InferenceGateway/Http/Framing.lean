import InferenceGateway.Lib.Number
import InferenceGateway.SpJson.Usage
import InferenceGateway.Http.Capture

/-!
# Rewriting the body of a framed request

Before a request goes to an engine its body may be rewritten in the receive buffer, and
`pd_update_content_length` then looks the length up in the header block as a text and replaces the
number behind it.  Both callers go on when it fails.

* `clStart_landing`       what stands at the place the search finds;
* `framed_iff`            when a header block and a new body stay one request;
* `request_stays_framed`  the same for the two callers;
* `request_unframed`      a length in another spelling, and another header that holds the text.
-/

open List Option

namespace Http

open Json (Bytes ascii)
open Text SpJson

def sockMsgLen : Nat := 1024 * 1024
abbrev cr : UInt8 := 0x0D
abbrev lf : UInt8 := 0x0A
abbrev sp : UInt8 := 0x20
abbrev tab : UInt8 := 0x09
abbrev colon : UInt8 := 0x3A
def crlf : Bytes := [cr, lf]
def crlf2 : Bytes := [cr, lf, cr, lf]
def labelUpper : Bytes := ascii "Content-Length:"
def labelLower : Bytes := ascii "content-length:"

/-- `cl_start`: where the length is looked for -/
def clStart (headers : Bytes) : Option Nat := (memmem labelUpper headers).or (memmem labelLower headers)

/-- `value_start`, past the spaces behind the label -/
def valueStart (b : Bytes) (label headersEnd : Nat) : Nat :=
  label + 15 + ((slice b (label + 15) headersEnd).takeWhile (· == sp)).length

def valueEnd (b : Bytes) (start headersEnd : Nat) : Nat :=
  start + ((slice b start headersEnd).takeWhile isDigit).length

/-- `pd_update_content_length`: the new buffer, nothing when it fails -/
def pdUpdateContentLength (buf : Bytes) (capacity newBodyLen : Nat) : Option Bytes :=
  (memmem crlf2 buf).bind fun headersEnd =>
    (clStart (buf.take (headersEnd + 4))).bind fun label =>
      let vs := valueStart buf label headersEnd
      let ve := valueEnd buf vs headersEnd
      -- `buf_len + shift > buf_capacity`, where the shift may be negative
      if capacity + (ve - vs) < buf.length + (decimal newBodyLen).length then none
      else some (buf.take vs ++ (decimal newBodyLen ++ buf.drop ve))

/-- what the two functions read of a `proxy_fd_ent_t` -/
structure Pfe where
  /-- `rcvbuf` up to `rcv_off` -/
  rcv : Bytes
  httpContentLength : Nat
  (odir isStreamable jsonGuardChunked httpPipelined pdSgActive : Bool)
  pdSavedBody : Option Bytes

structure Epval where
  (aiGwMode mcpStateless : Bool)

/-- the request is not one whose body is edited -/
def usageOff (epval : Option Epval) (pfe : Pfe) : Bool :=
  !(epval.any fun e => e.aiGwMode && !e.mcpStateless) || pfe.odir || pfe.isStreamable ||
    pfe.jsonGuardChunked || pfe.httpPipelined || pfe.httpContentLength == 0

/-- a new body behind the first `hdrLen` bytes; that the length was not updated is not noticed -/
def Pfe.rebody (pfe : Pfe) (hdrLen : Nat) (body : Bytes) : Pfe :=
  let rcv := pfe.rcv.take hdrLen ++ body
  { pfe with
    rcv := (pdUpdateContentLength rcv sockMsgLen body.length).getD rcv
    httpContentLength := body.length }

def pdRequestUsagePrepare (epval : Option Epval) (pfe : Pfe) : Pfe :=
  if usageOff epval pfe then pfe
  else match memmem crlf2 pfe.rcv with
    | none => pfe
    | some headersEnd =>
      let hdrLen := headersEnd + 4
      if pfe.rcv.length - hdrLen < pfe.httpContentLength then pfe
      else
        match injectIncludeUsage (slice pfe.rcv hdrLen (hdrLen + pfe.httpContentLength))
            (sockMsgLen - hdrLen) with
        | (0, body) => pfe.rebody hdrLen body
        | _ => pfe

/-- the saved-body restore of `pd_prepare_before_connect`; nothing when the request is given up -/
def restoreSavedBody (pfe : Pfe) : Option Pfe :=
  if pfe.pdSgActive then
    match pfe.pdSavedBody with
    | none => some pfe
    | some saved =>
      (memmem crlf2 pfe.rcv).bind fun headersEnd =>
        let hdrLen := headersEnd + 4
        if sockMsgLen - hdrLen < saved.length then none
        else some { pfe.rebody hdrLen saved with pdSavedBody := none, pdSgActive := false }
  else some pfe

/-! ## accepted requests -/

/-- the header block of a request that was accepted with one length: the lines before it, its name
in any letter case, blanks, the number, blanks, the lines after it -/
structure Head where
  before : List Bytes
  (name ws digits trail : Bytes)
  after : List Bytes
  name_eq : SameName name (ascii "Content-Length")
  ws_blank : ∀ b ∈ ws, b = sp ∨ b = tab
  digits_ne : digits ≠ []
  digits_digit : Digits digits
  trail_blank : ∀ b ∈ trail, b = sp ∨ b = tab
  lines : ∀ l ∈ before ++ after, l ≠ [] ∧ cr ∉ l ∧ lf ∉ l

namespace Head
variable (h : Head)

def lead : Bytes := h.before.flatMap fun l => l ++ crlf
def pre : Bytes := h.lead ++ (h.name ++ colon :: h.ws)

/-- what follows the number, up to the end of the last line -/
def tail : Bytes := h.trail ++ h.after.flatMap fun l => crlf ++ l

/-- the header block with another number, without and with the empty line -/
def text (v : Bytes) : Bytes := h.pre ++ (v ++ h.tail)
def write (v : Bytes) : Bytes := h.text v ++ crlf2
def bytes : Bytes := h.write h.digits

end Head

/-- the buffer is as before, or it is the header block with another number, followed by as many bytes
as that number says -/
def Framed (h : Head) (old new : Pfe) : Prop :=
  (new.rcv = old.rcv ∧ new.httpContentLength = old.httpContentLength) ∨
  ∃ v body, Digits v ∧ v ≠ [] ∧ new.rcv = h.write v ++ body ∧ body.length = value v ∧
    new.httpContentLength = value v

/-- the request in the buffer is one the parser accepted: the block, all of its body and perhaps
more -/
structure Accepted (h : Head) (body extra : Bytes) (pfe : Pfe) : Prop where
  rcv : pfe.rcv = h.bytes ++ (body ++ extra)
  length : body.length = value h.digits
  content : pfe.httpContentLength = body.length

/-! ## when the number that is replaced is the length -/

/-- the number that stands behind a label at `p` -/
def numberAt (text : Bytes) (p : Nat) : Bytes :=
  ((text.drop (p + 15)).dropWhile (· == sp)).takeWhile isDigit

/-- the search finds the field itself, with only spaces before its number, and the new number has
room in the buffer -/
def Found (h : Head) (n : Nat) : Prop :=
  clStart h.bytes = some h.lead.length ∧ (∀ b ∈ h.ws, b = sp) ∧
    h.bytes.length + n + (decimal n).length ≤ sockMsgLen + h.digits.length

/-- the update leaves the block as it is: it finds no label, no room, or the new number already -/
def Idle (h : Head) (n : Nat) : Prop :=
  ∀ p ∈ clStart h.bytes, numberAt (h.text h.digits) p = decimal n ∨
    sockMsgLen + (numberAt (h.text h.digits) p).length < h.bytes.length + n + (decimal n).length

/-- a body of `n` bytes can be put behind the header block -/
def Fits (h : Head) (n : Nat) : Prop := Found h n ∨ (n = value h.digits ∧ Idle h n)

instance (h : Head) (n : Nat) : Decidable (Fits h n) := by
  unfold Fits Found Idle
  have := decidableBAll (· = sp) h.ws
  infer_instance

/-! ## the end of the header block -/

variable {b r l m x y x' y' u name ws : Bytes} {p : Nat} {h : Head}

theorem head_of_crlf2 (h : crlf2 <+: b) : b.head? = some cr := by
  obtain ⟨u, rfl⟩ := h
  rfl

theorem not_crlf2 (hr : r.head? ≠ some cr) : ¬ crlf2 <+: crlf ++ r := by
  rintro ⟨u, hu⟩
  have hru : crlf ++ u = r := append_cancel_left (show crlf ++ (crlf ++ u) = crlf ++ r from hu)
  exact hr (hru ▸ rfl)

theorem memmem_line (hcr : cr ∉ l) (hr : r.head? ≠ some cr) :
    memmem crlf2 (l ++ (crlf ++ r)) = (memmem crlf2 r).map (· + (l ++ crlf).length) := by
  rw [← append_assoc]
  apply memmem_append
  intro x y hxy hy hpre
  have hhead := head_of_crlf2 hpre
  cases y with
  | nil => exact hy rfl
  | cons c y =>
    obtain rfl : c = cr := Option.some.inj hhead
    rcases append_eq_append_iff.mp hxy with ⟨z, -, hz⟩ | ⟨z, rfl, hz⟩
    · -- it starts in the line's end
      match z, hz with
      | [], hz =>
        obtain rfl : y = [lf] := (cons.inj hz).2.symm
        exact not_crlf2 hr hpre
      | [_], hz => exact absurd (cons.inj (cons.inj hz).2).1 (by decide)
      | _ :: _ :: z, hz =>
        have hlen := congrArg length hz
        simp [crlf] at hlen
    · -- it starts in the line
      cases z with
      | nil =>
        obtain rfl : y = [lf] := (cons.inj hz).2
        exact not_crlf2 hr hpre
      | cons c z =>
        have hc : cr = c := (cons.inj hz).1
        exact hcr (mem_append_right _ (hc ▸ mem_cons_self))

theorem head_line (hne : l ≠ []) (hcr : cr ∉ l) (r : Bytes) : (l ++ r).head? ≠ some cr := by
  obtain ⟨c, l', rfl⟩ := exists_cons_of_ne_nil hne
  intro hc
  exact hcr (Option.some.inj hc ▸ mem_cons_self)

theorem memmem_lines (hl : cr ∉ l) {ls : List Bytes} (hls : ∀ l ∈ ls, l ≠ [] ∧ cr ∉ l) (b : Bytes) :
    memmem crlf2 ((l ++ ls.flatMap fun l => crlf ++ l) ++ (crlf2 ++ b)) =
      some (l ++ ls.flatMap fun l => crlf ++ l).length := by
  induction ls generalizing l with
  | nil =>
    rw [flatMap_nil, append_nil]
    have hskip : memmem crlf2 (l ++ (crlf2 ++ b)) =
        (memmem crlf2 (crlf2 ++ b)).map (· + l.length) := by
      apply memmem_append
      intro x y hxy hy hpre
      have hhead := head_of_crlf2 hpre
      cases y with
      | nil => exact hy rfl
      | cons c y =>
        obtain rfl : c = cr := Option.some.inj hhead
        exact hl (hxy ▸ mem_append_right x mem_cons_self)
    have hhere : memmem crlf2 (crlf2 ++ b) = some 0 :=
      memmem_here (by simp [crlf2]) (prefix_append _ _)
    rw [hskip, hhere, map_some, Nat.zero_add]
  | cons l' ls ih =>
    obtain ⟨hne, hcr⟩ := hls l' mem_cons_self
    have hrest := ih hcr fun k hk => hls k (mem_cons_of_mem l' hk)
    have hhead : ((l' ++ ls.flatMap fun l => crlf ++ l) ++ (crlf2 ++ b)).head? ≠ some cr := by
      rw [append_assoc]
      exact head_line hne hcr _
    have hassoc : (l ++ (l' :: ls).flatMap fun l => crlf ++ l) ++ (crlf2 ++ b) =
        l ++ (crlf ++ ((l' ++ ls.flatMap fun l => crlf ++ l) ++ (crlf2 ++ b))) := by
      simp
    rw [hassoc, memmem_line hl hhead, hrest]
    simp
    omega

namespace Head
variable (h : Head)

theorem name_length : h.name.length = 14 := by
  have hlen := congrArg length h.name_eq
  rw [length_map] at hlen
  exact hlen

theorem cr_not_name : cr ∉ h.name := by
  intro hc
  have hm : lower cr ∈ (ascii "Content-Length").map lower := h.name_eq ▸ mem_map_of_mem hc
  exact absurd hm (by decide +kernel)

theorem cr_not_blank {l : Bytes} (hl : ∀ b ∈ l, b = sp ∨ b = tab) : cr ∉ l := by
  intro hc
  rcases hl _ hc with h | h <;> exact absurd h (by decide)

theorem cr_not_digits {v : Bytes} (hv : Digits v) : cr ∉ v := fun hc => absurd (hv _ hc) (by decide)
def line (v : Bytes) : Bytes := h.name ++ colon :: (h.ws ++ (v ++ h.trail))

theorem cr_not_line {v : Bytes} (hv : Digits v) : cr ∉ h.line v := by
  intro hc
  rcases mem_append.mp hc with hc | hc
  · exact h.cr_not_name hc
  rcases mem_cons.mp hc with hc | hc
  · exact absurd hc (by decide)
  rcases mem_append.mp hc with hc | hc
  · exact cr_not_blank h.ws_blank hc
  rcases mem_append.mp hc with hc | hc
  · exact cr_not_digits hv hc
  · exact cr_not_blank h.trail_blank hc

theorem memmem_write {v : Bytes} (hv : Digits v) (b : Bytes) :
    memmem crlf2 (h.write v ++ b) = some (h.text v).length := by
  have htext : h.text v = h.lead ++ (h.line v ++ h.after.flatMap fun l => crlf ++ l) := by
    simp [text, pre, tail, line]
  have hlines : ∀ l ∈ h.before ++ h.after, l ≠ [] ∧ cr ∉ l := fun l hl =>
    ⟨(h.lines l hl).1, (h.lines l hl).2.1⟩
  have hend := memmem_lines (h.cr_not_line hv) (fun l hl => hlines l (mem_append_right _ hl)) b
  have hhead : ((h.line v ++ h.after.flatMap fun l => crlf ++ l) ++ (crlf2 ++ b)).head? ≠ some cr := by
    rw [append_assoc]
    exact head_line (by simp [line]) (h.cr_not_line hv) _
  rw [write, append_assoc, htext, lead]
  have hbefore : ∀ l ∈ h.before, l ≠ [] ∧ cr ∉ l := fun l hl => hlines l (mem_append_left _ hl)
  generalize h.line v ++ (h.after.flatMap fun l => crlf ++ l) = rest at hend hhead
  generalize h.before = before at hbefore
  -- one line after the other up to the line of the length
  have hall : memmem crlf2 ((before.flatMap fun l => l ++ crlf) ++ (rest ++ (crlf2 ++ b))) =
        some ((before.flatMap fun l => l ++ crlf) ++ rest).length ∧
      ((before.flatMap fun l => l ++ crlf) ++ (rest ++ (crlf2 ++ b))).head? ≠ some cr := by
    induction before with
    | nil => exact ⟨hend, hhead⟩
    | cons l before ih =>
      obtain ⟨hne, hcr⟩ := hbefore l mem_cons_self
      obtain ⟨h1, h2⟩ := ih fun k hk => hbefore k (mem_cons_of_mem l hk)
      have hassoc : ((l :: before).flatMap fun l => l ++ crlf) ++ (rest ++ (crlf2 ++ b)) =
          l ++ (crlf ++ ((before.flatMap fun l => l ++ crlf) ++ (rest ++ (crlf2 ++ b)))) := by
        simp
      rw [hassoc, memmem_line hcr h2, h1]
      constructor
      · simp
        omega
      · exact head_line hne hcr _
  rw [append_assoc]
  exact hall.1

end Head

/-! ## where the search lands -/

theorem label_length {label : Bytes} (h : label = labelUpper ∨ label = labelLower) :
    ∃ name, label = name ++ [colon] ∧ name.length = 14 := by
  rcases h with rfl | rfl
  · exact ⟨ascii "Content-Length", by decide +kernel, by decide +kernel⟩
  · exact ⟨ascii "content-length", by decide +kernel, by decide +kernel⟩

theorem clStart_at (h : clStart b = some p) :
    ∃ label, (label = labelUpper ∨ label = labelLower) ∧ At b p label := by
  rcases or_eq_some_iff.mp h with h | ⟨-, h⟩
  · exact ⟨_, .inl rfl, memmem_some h⟩
  · exact ⟨_, .inr rfl, memmem_some h⟩

theorem clStart_le (h : clStart (m ++ crlf2) = some p) : p + 15 ≤ m.length := by
  obtain ⟨label, hl, hat⟩ := clStart_at h
  obtain ⟨name, rfl, hlen⟩ := label_length hl
  have hcolon : (m ++ crlf2)[p + 14]? = some colon := by
    have := (at_append.mp hat).2.head
    rwa [hlen] at this
  apply Nat.le_of_not_lt
  intro hlt
  rw [getElem?_append_right (by omega)] at hcolon
  exact absurd (mem_of_getElem? hcolon) (by decide)

/-- a text with the label at `p`: what is before it, its name, the spaces behind it, the number and
what follows -/
structure Landing (m : Bytes) (p : Nat) (u name ws r : Bytes) : Prop where
  text : m = (u ++ (name ++ colon :: ws)) ++ (numberAt m p ++ r)
  place : u.length = p
  label : name.length = 14
  spaces : ∀ b ∈ ws, b = sp
  stop : (numberAt m p ++ r).head? ≠ some sp
  off : StartsOff (r ++ crlf2)
  start : p + 15 + ((m.drop (p + 15)).takeWhile (· == sp)).length = (u ++ (name ++ colon :: ws)).length

theorem clStart_landing (h : clStart (m ++ crlf2) = some p) :
    ∃ u name ws r, Landing m p u name ws r := by
  have hle := clStart_le h
  obtain ⟨label, hl, hat⟩ := clStart_at h
  obtain ⟨name, rfl, hlen⟩ := label_length hl
  -- the label lies in the text
  have hsplit : m = m.take p ++ ((name ++ [colon]) ++ m.drop (p + 15)) := by
    have hpre : name ++ [colon] <+: m.drop p := by
      refine prefix_of_prefix_length_le hat ?_ ?_
      · rw [drop_append_of_le_length (by omega)]
        exact prefix_append _ _
      · rw [length_append, hlen, length_drop]
        show 15 ≤ _
        omega
    obtain ⟨w, hw⟩ := hpre
    have hrest : m.drop (p + 15) = w := by
      rw [← drop_drop, ← hw]
      exact drop_left' (by simp [hlen])
    rw [hrest, hw, take_append_drop]
  have hspaces := takeWhile_append_dropWhile (p := (· == sp)) (l := m.drop (p + 15))
  have hnumber := takeWhile_append_dropWhile (p := isDigit) (l := (m.drop (p + 15)).dropWhile (· == sp))
  refine ⟨m.take p, name, (m.drop (p + 15)).takeWhile (· == sp),
    ((m.drop (p + 15)).dropWhile (· == sp)).dropWhile isDigit, ?_, ?_, hlen, ?_, ?_, ?_, ?_⟩
  · conv_lhs => rw [hsplit, ← hspaces, ← hnumber]
    simp [numberAt]
  · rw [length_take]
    omega
  · intro b hb
    have hall := all_eq_true.mp (all_takeWhile) b hb
    simpa using hall
  · rw [numberAt, hnumber]
    intro hc
    have := head?_dropWhile_not (· == sp) (m.drop (p + 15))
    rw [hc] at this
    simp at this
  · cases hr : ((m.drop (p + 15)).dropWhile (· == sp)).dropWhile isDigit with
    | nil => exact ⟨cr, _, rfl, by decide⟩
    | cons c r =>
      have := head?_dropWhile_not isDigit ((m.drop (p + 15)).dropWhile (· == sp))
      rw [hr] at this
      exact ⟨c, r ++ crlf2, rfl, by simpa using this⟩
  · simp [hlen]
    omega

theorem endsOff_blank {u name ws : Bytes} (hws : ∀ b ∈ ws, b = sp ∨ b = tab) :
    EndsOff (u ++ (name ++ colon :: ws)) := by
  rcases eq_nil_or_concat ws with h | ⟨ws', c, h⟩
  · refine ⟨u ++ name, colon, ?_, by decide⟩
    rw [h, append_assoc]
  · refine ⟨u ++ (name ++ colon :: ws'), c, ?_, ?_⟩
    · rw [h]
      simp
    · rcases hws c (by rw [h, concat_eq_append]; simp) with hc | hc <;> rw [hc] <;> decide

theorem take_block (m b : Bytes) : ((m ++ crlf2) ++ b).take (m.length + 4) = m ++ crlf2 :=
  take_left' (by simp [crlf2])

namespace Landing
variable {m u name ws r : Bytes} {p : Nat}

theorem digits : Digits (numberAt m p) := fun b hb =>
  all_eq_true.mp (all_takeWhile) b hb

theorem takeWhile_number (l : Landing m p u name ws r) :
    (numberAt m p ++ r).takeWhile isDigit = numberAt m p := by
  rw [takeWhile_append_of_pos digits]
  cases r with
  | nil => exact append_nil _
  | cons c r =>
    obtain ⟨c', r', h, hc⟩ := l.off
    rw [← (cons.inj h).1] at hc
    rw [takeWhile_cons_of_neg (by rw [hc]; exact Bool.false_ne_true), append_nil]

theorem update (l : Landing m p u name ws r) (hp : clStart (m ++ crlf2) = some p) {b : Bytes}
    (hm : memmem crlf2 ((m ++ crlf2) ++ b) = some m.length) (capacity n : Nat) :
    pdUpdateContentLength ((m ++ crlf2) ++ b) capacity n =
      if capacity + (numberAt m p).length < ((m ++ crlf2) ++ b).length + (decimal n).length then none
      else some ((u ++ (name ++ colon :: ws)) ++ (decimal n ++ ((r ++ crlf2) ++ b))) := by
  have hle := clStart_le hp
  have htext := l.text
  have hfrom := l.start
  set v := u ++ (name ++ colon :: ws)
  have hslice : ∀ i, i ≤ m.length → slice ((m ++ crlf2) ++ b) i m.length = m.drop i := by
    intro i hi
    unfold slice
    rw [append_assoc, drop_append_of_le_length hi, take_append_of_le_length (by rw [length_drop]),
      take_of_length_le (by rw [length_drop])]
  have hvs : valueStart ((m ++ crlf2) ++ b) p m.length = v.length := by
    rw [valueStart, hslice _ hle, hfrom]
  have hdrop : m.drop v.length = numberAt m p ++ r := by
    conv_lhs => rw [htext]
    exact drop_left
  have hstart : v.length ≤ m.length := by
    have hlen := congrArg length htext
    rw [length_append] at hlen
    omega
  have hve : valueEnd ((m ++ crlf2) ++ b) v.length m.length = v.length + (numberAt m p).length := by
    rw [valueEnd, hslice _ hstart, hdrop, l.takeWhile_number]
  have hbuf : (m ++ crlf2) ++ b = v ++ (numberAt m p ++ ((r ++ crlf2) ++ b)) := by
    conv_lhs => rw [htext]
    simp only [append_assoc]
  unfold pdUpdateContentLength
  rw [hm]
  show (clStart (((m ++ crlf2) ++ b).take (m.length + 4))).bind _ = _
  rw [take_block, hp]
  show (if capacity + (valueEnd _ (valueStart _ p m.length) m.length - valueStart _ p m.length) < _
    then none else some (((m ++ crlf2) ++ b).take (valueStart _ p m.length) ++ (decimal n ++
      ((m ++ crlf2) ++ b).drop (valueEnd _ (valueStart _ p m.length) m.length)))) = _
  rw [hvs, hve, Nat.add_sub_cancel_left]
  have hfirst : ((m ++ crlf2) ++ b).take v.length = v := by
    rw [hbuf, take_left]
  have hlast : ((m ++ crlf2) ++ b).drop (v.length + (numberAt m p).length) =
      (r ++ crlf2) ++ b := by
    rw [← drop_drop, hbuf, drop_left, drop_left]
  rw [hfirst, hlast]

end Landing

/-! ## whether it is the length -/

theorem colon_unique (hy : colon ∉ y) (hy' : colon ∉ y') (h : x ++ colon :: y = x' ++ colon :: y') :
    x = x' ∧ y = y' := by
  rcases append_eq_append_iff.mp h with ⟨z, rfl, hz⟩ | ⟨z, rfl, hz⟩
  · cases z with
    | nil => exact ⟨(append_nil x).symm, (cons.inj hz).2⟩
    | cons c z =>
      rw [(cons.inj hz).2] at hy
      exact absurd (mem_append_right z mem_cons_self) hy
  · cases z with
    | nil => exact ⟨append_nil x', (cons.inj hz).2.symm⟩
    | cons c z =>
      rw [(cons.inj hz).2] at hy'
      exact absurd (mem_append_right z mem_cons_self) hy'

theorem spaces_unique (hx : ∀ b ∈ x, b = sp) (hx' : ∀ b ∈ x', b = sp) (hy : y.head? ≠ some sp)
    (hy' : y'.head? ≠ some sp) (h : x ++ y = x' ++ y') : x = x' := by
  have htake : ∀ {x y : Bytes}, (∀ b ∈ x, b = sp) → y.head? ≠ some sp →
      (x ++ y).takeWhile (· == sp) = x := by
    intro x y hx hy
    rw [takeWhile_append_of_pos fun b hb => beq_iff_eq.mpr (hx b hb)]
    cases y with
    | nil => exact append_nil x
    | cons c y =>
      have hc : ¬ (c == sp) = true := fun hc => hy (congrArg some (beq_iff_eq.mp hc))
      rw [takeWhile_cons, if_neg hc, append_nil]
  rw [← htake hx hy, h, htake hx' hy']

namespace Head
variable (h : Head)

theorem startsOff_tail : StartsOff (h.tail ++ crlf2) := by
  unfold tail
  cases ht : h.trail with
  | nil =>
    cases h.after with
    | nil | cons => exact ⟨cr, _, rfl, by decide⟩
  | cons c t =>
    refine ⟨c, _, rfl, ?_⟩
    rcases h.trail_blank c (ht ▸ mem_cons_self) with hc | hc <;> rw [hc] <;> decide

theorem write_eq (v : Bytes) : h.write v = h.pre ++ (v ++ (h.tail ++ crlf2)) := by
  simp [write, text]

theorem write_inj {v w : Bytes} (he : h.write v = h.write w) : v = w := by
  rw [write_eq, write_eq] at he
  exact append_cancel_right (append_cancel_left he)

theorem colon_not_ws : colon ∉ h.ws := by
  intro hc
  rcases h.ws_blank _ hc with hb | hb <;> exact absurd hb (by decide)

theorem digits_head : (h.digits ++ h.tail).head? ≠ some sp := by
  obtain ⟨c, d, hd⟩ := exists_cons_of_ne_nil h.digits_ne
  rw [hd]
  intro hc
  have hdigit := h.digits_digit c (hd ▸ mem_cons_self)
  rw [Option.some.inj hc] at hdigit
  exact absurd hdigit (by decide)

end Head

theorem landing_iff (l : Landing (h.text h.digits) p u name ws r) :
    u ++ (name ++ colon :: ws) = h.pre ↔ p = h.lead.length ∧ ∀ b ∈ h.ws, b = sp := by
  have hws : colon ∉ ws := fun hc => absurd (l.spaces _ hc) (by decide)
  constructor
  · intro he
    have he' : (u ++ name) ++ colon :: ws = (h.lead ++ h.name) ++ colon :: h.ws := by
      simpa [Head.pre] using he
    obtain ⟨h1, h2⟩ := colon_unique hws h.colon_not_ws he'
    have h3 : u = h.lead := (append_inj' h1 (by rw [l.label, h.name_length])).1
    exact ⟨by rw [← l.place, h3], h2 ▸ l.spaces⟩
  · rintro ⟨hp, hsp⟩
    have htext := l.text
    have hstop := l.stop
    generalize numberAt (h.text h.digits) p = d at htext hstop
    rw [Head.text, Head.pre, append_assoc, append_assoc, append_assoc, append_assoc] at htext
    obtain ⟨h1, h2⟩ := append_inj htext (by rw [l.place, hp])
    obtain ⟨h3, h4⟩ := append_inj h2 (by rw [l.label, h.name_length])
    have h5 : h.ws ++ (h.digits ++ h.tail) = ws ++ (d ++ r) := (cons.inj h4).2
    have h6 := spaces_unique hsp l.spaces h.digits_head hstop h5
    rw [Head.pre, h1, h3, h6]

theorem landing_number (l : Landing (h.text h.digits) p u name ws r)
    (he : u ++ (name ++ colon :: ws) = h.pre) :
    numberAt (h.text h.digits) p = h.digits ∧ r ++ crlf2 = h.tail ++ crlf2 := by
  have htext := l.text
  rw [he] at htext
  have h1 : h.digits ++ h.tail = numberAt (h.text h.digits) p ++ r := append_cancel_left htext
  have h2 := congrArg (· ++ crlf2) h1
  simp only [append_assoc] at h2
  obtain ⟨h3, h4⟩ := digits_unique h.digits_digit Landing.digits h.startsOff_tail l.off h2
  exact ⟨h3.symm, h4.symm⟩

/-! ## when the request stays framed -/

section
variable {h : Head} {rest b : Bytes} {old new : Pfe}

/-- the body and its length are put in place as they were -/
def Unmoved (rest b : Bytes) (old : Pfe) : Prop := b = rest ∧ b.length = old.httpContentLength

section
variable (hold : old.rcv = h.bytes ++ rest) (hlen : new.httpContentLength = b.length)
include hold hlen

theorem framed_same (hrcv : new.rcv = h.bytes ++ b) :
    Framed h old new ↔ b.length = value h.digits ∨ Unmoved rest b old := by
  constructor
  · rintro (⟨hr, hc⟩ | ⟨v, body, -, -, hr, hb, hc⟩)
    · rw [hrcv, hold] at hr
      exact .inr ⟨append_cancel_left hr, by rw [← hlen, hc]⟩
    · have heq : h.bytes ++ b = h.write v ++ body := hrcv ▸ hr
      obtain ⟨h1, -⟩ := append_inj' heq (by rw [hb, ← hc, hlen])
      exact .inl (by rw [← hlen, hc, h.write_inj h1])
  · rintro (hv | ⟨hb, hc⟩)
    · exact .inr ⟨h.digits, b, h.digits_digit, h.digits_ne, hrcv, hv, hlen.trans hv⟩
    · exact .inl ⟨by rw [hrcv, hold, hb], by rw [hlen, hc]⟩

theorem framed_edit {p : Nat} {u name ws r : Bytes} (l : Landing (h.text h.digits) p u name ws r)
    (hrcv : new.rcv = (u ++ (name ++ colon :: ws)) ++ (decimal b.length ++ ((r ++ crlf2) ++ b))) :
    Framed h old new ↔ u ++ (name ++ colon :: ws) = h.pre ∨
      (numberAt (h.text h.digits) p = decimal b.length ∧
        (b.length = value h.digits ∨ Unmoved rest b old)) := by
  have hbytes : h.bytes = (u ++ (name ++ colon :: ws)) ++
      (numberAt (h.text h.digits) p ++ (r ++ crlf2)) := by
    have := congrArg (· ++ crlf2) l.text
    simpa [Head.bytes, Head.write] using this
  -- a number that was already there leaves the block as it was
  have hsame : numberAt (h.text h.digits) p = decimal b.length → new.rcv = h.bytes ++ b := by
    intro hd
    rw [hrcv, hbytes, hd]
    simp only [append_assoc]
  constructor
  · rintro (⟨hr, hc⟩ | ⟨v, body, hv, hne, hr, hb, hc⟩)
    · -- the buffer is as before: the number was already there
      have hr' := hr
      rw [hrcv, hold, hbytes, append_assoc _ _ rest] at hr'
      have hnum := append_cancel_left hr'
      rw [append_assoc _ _ rest] at hnum
      obtain ⟨h1, -⟩ := digits_unique (digits_decimal _) Landing.digits (l.off.append b)
        (l.off.append _) hnum
      exact .inr ⟨h1.symm, (framed_same hold hlen (hsame h1.symm)).mp (.inl ⟨hr, hc⟩)⟩
    · -- both blocks are rewritings of the one that was received
      have heq : ((u ++ (name ++ colon :: ws)) ++ (decimal b.length ++ (r ++ crlf2))) ++ b =
          h.write v ++ body := by
        rw [← hr, hrcv]
        simp only [append_assoc]
      obtain ⟨h1, -⟩ := append_inj' heq (by rw [hb, ← hc, hlen])
      rw [h.write_eq] at h1
      have h0 : (u ++ (name ++ colon :: ws)) ++ (numberAt (h.text h.digits) p ++ (r ++ crlf2)) =
          h.pre ++ (h.digits ++ (h.tail ++ crlf2)) := by
        rw [← hbytes, Head.bytes, h.write_eq]
      rcases rewrite_unique (endsOff_blank fun b hb => .inl (l.spaces b hb)) (endsOff_blank h.ws_blank) l.off
        h.startsOff_tail Landing.digits (digits_decimal _) h.digits_digit hv h0 h1 with h2 | ⟨h2, h3⟩
      · exact .inl h2
      · exact .inr ⟨h2.symm, .inl (by rw [← hlen, hc, h3])⟩
  · rintro (he | ⟨hd, hv⟩)
    · obtain ⟨-, htail⟩ := landing_number l he
      refine .inr ⟨decimal b.length, b, digits_decimal _, decimal_ne_nil _, ?_,
        (value_decimal _).symm, by rw [hlen, value_decimal]⟩
      rw [hrcv, he, htail, h.write_eq]
      simp only [append_assoc]
    · exact (framed_same hold hlen (hsame hd)).mpr hv

/-- **A header block and a new body stay one request** exactly if the number that is replaced is the
length and there is room, or no number is replaced and none had to be. -/
theorem framed_iff
    (hrcv : new.rcv = (pdUpdateContentLength (h.bytes ++ b) sockMsgLen b.length).getD (h.bytes ++ b)) :
    Framed h old new ↔ Found h b.length ∨
      (Idle h b.length ∧ (b.length = value h.digits ∨ Unmoved rest b old)) := by
  have hend : memmem crlf2 ((h.text h.digits ++ crlf2) ++ b) = some (h.text h.digits).length :=
    h.memmem_write h.digits_digit b
  have htotal : ((h.text h.digits ++ crlf2) ++ b).length = h.bytes.length + b.length :=
    length_append
  cases hp : clStart h.bytes with
  | none =>
    have hup : pdUpdateContentLength ((h.text h.digits ++ crlf2) ++ b) sockMsgLen b.length = none := by
      unfold pdUpdateContentLength
      rw [hend]
      show (clStart (((h.text h.digits ++ crlf2) ++ b).take ((h.text h.digits).length + 4))).bind _ = _
      rw [take_block, show clStart (h.text h.digits ++ crlf2) = none from hp]
      rfl
    change pdUpdateContentLength (h.bytes ++ b) sockMsgLen b.length = none at hup
    rw [hup] at hrcv
    rw [framed_same hold hlen hrcv]
    constructor
    · intro hv
      refine .inr ⟨fun p hm => ?_, hv⟩
      rw [hp] at hm
      cases hm
    · rintro (⟨hf, -⟩ | ⟨-, hv⟩)
      · rw [hp] at hf
        cases hf
      · exact hv
  | some p =>
    obtain ⟨u, name, ws, r, l⟩ := clStart_landing hp
    have hup := l.update hp hend sockMsgLen b.length
    -- what the conditions say of the place that was found
    have hidle : Idle h b.length ↔ numberAt (h.text h.digits) p = decimal b.length ∨
        sockMsgLen + (numberAt (h.text h.digits) p).length <
          h.bytes.length + b.length + (decimal b.length).length := by
      unfold Idle
      rw [hp]
      simp
    have hfound : Found h b.length ↔ u ++ (name ++ colon :: ws) = h.pre ∧
        h.bytes.length + b.length + (decimal b.length).length ≤
          sockMsgLen + (numberAt (h.text h.digits) p).length := by
      unfold Found
      rw [hp, landing_iff l, some_inj, and_assoc]
      refine and_congr_right fun h1 => and_congr_right fun h2 => ?_
      rw [(landing_number l ((landing_iff l).mpr ⟨h1, h2⟩)).1]
    rw [htotal] at hup
    rw [hidle, hfound]
    split at hup
    case isTrue hfull =>
      have hup' : pdUpdateContentLength (h.bytes ++ b) sockMsgLen b.length = none := hup
      rw [hup'] at hrcv
      rw [framed_same hold hlen hrcv]
      constructor
      · exact fun hv => .inr ⟨.inr hfull, hv⟩
      · rintro (⟨-, hroom⟩ | ⟨-, hv⟩)
        · exact absurd hfull (Nat.not_lt.mpr hroom)
        · exact hv
    case isFalse hroom =>
      have hup' : pdUpdateContentLength (h.bytes ++ b) sockMsgLen b.length = some _ := hup
      rw [hup'] at hrcv
      rw [framed_edit hold hlen l hrcv]
      constructor
      · rintro (he | ⟨hd, hv⟩)
        · exact .inl ⟨he, Nat.not_lt.mp hroom⟩
        · exact .inr ⟨.inl hd, hv⟩
      · rintro (⟨he, -⟩ | ⟨hd | hfull, hv⟩)
        · exact .inl he
        · exact .inr ⟨hd, hv⟩
        · exact absurd hfull hroom

end

end

section
variable {h : Head} {body extra rest : Bytes} {pfe : Pfe}

theorem buffered_end (hrcv : pfe.rcv = h.bytes ++ rest) :
    memmem crlf2 pfe.rcv = some (h.text h.digits).length ∧
      (h.text h.digits).length + 4 = h.bytes.length ∧
      pfe.rcv.take h.bytes.length = h.bytes := by
  refine ⟨?_, ?_, ?_⟩
  · rw [hrcv]
    exact h.memmem_write h.digits_digit rest
  · simp [Head.bytes, Head.write, crlf2]
  · rw [hrcv, take_left]

theorem rebody_framed (hrcv : pfe.rcv = h.bytes ++ rest) (b : Bytes) (new : Pfe)
    (hr : new.rcv = (pfe.rebody h.bytes.length b).rcv) (hc : new.httpContentLength = b.length) :
    Framed h pfe new ↔ Found h b.length ∨
      (Idle h b.length ∧ (b.length = value h.digits ∨ Unmoved rest b pfe)) := by
  apply framed_iff hrcv hc
  rw [hr]
  show (pdUpdateContentLength (pfe.rcv.take _ ++ b) sockMsgLen b.length).getD _ = _
  rw [(buffered_end hrcv).2.2]

theorem prepare_framed (hacc : Accepted h body extra pfe) (epval : Option Epval) :
    Framed h pfe (pdRequestUsagePrepare epval pfe) ↔ usageOff epval pfe = true ∨
      (injectIncludeUsage body (sockMsgLen - h.bytes.length)).1 ≠ 0 ∨
      Fits h (injectIncludeUsage body (sockMsgLen - h.bytes.length)).2.length := by
  obtain ⟨hend, hlen, -⟩ := buffered_end hacc.rcv
  have hbody : slice pfe.rcv h.bytes.length (h.bytes.length + pfe.httpContentLength) = body := by
    rw [hacc.rcv, hacc.content, slice, drop_left, Nat.add_sub_cancel_left, take_left]
  have hwhole : ¬ pfe.rcv.length - h.bytes.length < pfe.httpContentLength := by
    rw [hacc.rcv, hacc.content, length_append, length_append]
    omega
  unfold pdRequestUsagePrepare
  cases hoff : usageOff epval pfe with
  | true =>
    exact iff_of_true (.inl ⟨rfl, rfl⟩) (.inl rfl)
  | false =>
    rw [hend]
    dsimp only
    rw [hlen, if_neg hwhole, hbody]
    generalize injectIncludeUsage body (sockMsgLen - h.bytes.length) = edit
    obtain ⟨rc, b⟩ := edit
    by_cases hrc : rc = 0
    · subst hrc
      have hiff : Framed h pfe (pfe.rebody h.bytes.length b) ↔ Fits h b.length := by
        rw [rebody_framed hacc.rcv b _ rfl rfl]
        refine or_congr_right ⟨?_, fun hf => ⟨hf.2, .inl hf.1⟩⟩
        rintro ⟨hi, hv | ⟨-, hv⟩⟩
        · exact ⟨hv, hi⟩
        · exact ⟨by rw [hv, hacc.content, hacc.length], hi⟩
      simpa using hiff
    · have hsame : (match (rc, b) with
          | (0, b) => pfe.rebody h.bytes.length b
          | _ => pfe) = pfe := by
        split
        case h_1 heq => exact absurd (Prod.mk.inj heq).1 hrc
        case h_2 => rfl
      rw [hsame]
      exact iff_of_true (.inl ⟨rfl, rfl⟩) (.inr (.inl hrc))

theorem restore_framed (hrcv : pfe.rcv = h.bytes ++ rest) :
    (∀ new ∈ restoreSavedBody pfe, Framed h pfe new) ↔ pfe.pdSgActive = false ∨
      ∀ saved ∈ pfe.pdSavedBody, sockMsgLen - h.bytes.length < saved.length ∨
        Fits h saved.length ∨ (Idle h saved.length ∧ Unmoved rest saved pfe) := by
  obtain ⟨hend, hlen, -⟩ := buffered_end hrcv
  have hkept : ∀ new ∈ some pfe, Framed h pfe new := by
    intro new hnew
    cases hnew
    exact .inl ⟨rfl, rfl⟩
  unfold restoreSavedBody
  cases hact : pfe.pdSgActive with
  | false =>
    exact iff_of_true hkept (.inl rfl)
  | true =>
    cases hs : pfe.pdSavedBody with
    | none => exact iff_of_true hkept (.inr fun saved hm => by cases hm)
    | some saved =>
      rw [hend]
      show (∀ new ∈ (if sockMsgLen - ((h.text h.digits).length + 4) < saved.length then none
        else some { pfe.rebody ((h.text h.digits).length + 4) saved with
          pdSavedBody := none, pdSgActive := false } : Option Pfe), _) ↔ _
      rw [hlen]
      by_cases hbig : sockMsgLen - h.bytes.length < saved.length
      · rw [if_pos hbig]
        refine iff_of_true (fun new hnew => by cases hnew) (.inr fun s hm => ?_)
        cases hm
        exact .inl hbig
      · have hiff := rebody_framed hrcv saved { pfe.rebody h.bytes.length saved with
          pdSavedBody := none, pdSgActive := false } rfl rfl
        rw [if_neg hbig]
        simp only [mem_def, Option.some.injEq, forall_eq', hiff, hbig, Fits, false_or,
          Bool.true_eq_false]
        tauto

end

/-- **A rewritten request stays framed** exactly if its body is left alone, or the search for the
length finds the field itself and there is room, or no number changes and none had to. -/
theorem request_stays_framed (h : Head) (pfe : Pfe) :
    (∀ (body extra : Bytes) (epval : Option Epval), Accepted h body extra pfe →
      (Framed h pfe (pdRequestUsagePrepare epval pfe) ↔ usageOff epval pfe = true ∨
        (injectIncludeUsage body (sockMsgLen - h.bytes.length)).1 ≠ 0 ∨
        Fits h (injectIncludeUsage body (sockMsgLen - h.bytes.length)).2.length)) ∧
    ∀ rest : Bytes, pfe.rcv = h.bytes ++ rest →
      ((∀ new ∈ restoreSavedBody pfe, Framed h pfe new) ↔ pfe.pdSgActive = false ∨
        ∀ saved ∈ pfe.pdSavedBody, sockMsgLen - h.bytes.length < saved.length ∨
          Fits h saved.length ∨ (Idle h saved.length ∧ Unmoved rest saved pfe)) :=
  ⟨fun _ _ epval hacc => prepare_framed hacc epval, fun _ hrcv => restore_framed hrcv⟩

/-- a request with the given spelling of its length, behind another header -/
def post (other name : Bytes) (hn : SameName name (ascii "Content-Length"))
    (ho : other ≠ [] ∧ cr ∉ other ∧ lf ∉ other) : Head where
  before := [ascii "POST /v1/completions HTTP/1.1", other]
  name := name
  ws := [sp]
  digits := ascii "15"
  trail := []
  after := []
  name_eq := hn
  ws_blank := by decide +kernel
  digits_ne := by decide +kernel
  digits_digit := by decide +kernel
  trail_blank := by decide +kernel
  lines := by
    intro l hl
    rcases mem_cons.mp hl with rfl | hl
    · decide +kernel
    · rw [mem_singleton.mp hl]
      exact ho

def streamText : Bytes := ascii "\x7b\"stream\":true\x7d"

def posted (h : Head) : Pfe := ⟨h.bytes ++ (streamText ++ []), 15, false, false, false, false, true,
  some (ascii "\x7b\x7d")⟩

def gateway : Option Epval := some ⟨true, false⟩

def plainPost : Head := post (ascii "Host: gw") (ascii "Content-Length") (by decide +kernel)
  (by decide +kernel)

theorem request_stays_framed_plain :
    Framed plainPost (posted plainPost) (pdRequestUsagePrepare gateway (posted plainPost)) ∧
      ∀ new ∈ restoreSavedBody (posted plainPost), Framed plainPost (posted plainPost) new := by
  obtain ⟨hprepare, hrestore⟩ := request_stays_framed plainPost (posted plainPost)
  constructor
  · rw [hprepare streamText [] gateway ⟨rfl, by decide +kernel, by decide +kernel⟩]
    decide +kernel
  · rw [hrestore (streamText ++ []) rfl]
    refine .inr fun saved hm => .inr (.inl ?_)
    cases hm
    decide +kernel

/-- `Content-length`, and a header whose name ends with the label -/
def spelledPost : Head := post (ascii "Host: gw") (ascii "Content-length") (by decide +kernel)
  (by decide +kernel)

def shadowedPost : Head := post (ascii "X-Content-Length: 7") (ascii "Content-Length")
  (by decide +kernel) (by decide +kernel)

/-- **A longer body behind the old length**, in a spelling that is not searched for and behind a
header that is found instead. -/
theorem request_unframed :
    ¬ Framed spelledPost (posted spelledPost) (pdRequestUsagePrepare gateway (posted spelledPost)) ∧
    ¬ Framed shadowedPost (posted shadowedPost) (pdRequestUsagePrepare gateway (posted shadowedPost)) := by
  have hacc : ∀ h, h.digits = ascii "15" → Accepted h streamText [] (posted h) := by
    intro h hd
    refine ⟨rfl, ?_, show 15 = streamText.length by decide +kernel⟩
    rw [hd]
    decide +kernel
  rw [prepare_framed (hacc spelledPost rfl), prepare_framed (hacc shadowedPost rfl)]
  constructor <;> decide +kernel

end Http
