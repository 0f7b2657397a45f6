import Mathlib.Data.List.Basic
import EbpfTools.Lib.LastWins
import EbpfTools.Pksniff.Filter

/-!
# What the tokens of a filter string set
-/

namespace EbpfTools.Pksniff
open EbpfTools.Lib EbpfTools.Bpf

/-! ## A filter as one condition for each key -/

inductive Key
  | ip
  | port
  | proto
  | app
  | dir
  deriving DecidableEq

-- what a key is set to, and what of an event it looks at
abbrev Key.Value : Key → Type
  | .ip => List UInt8
  | .port => UInt16
  | .proto => UInt8
  | .app => UInt8
  | .dir => UInt8

abbrev Key.Aspect : Key → Type
  | .ip => UInt32 × UInt32
  | .port => UInt16 × UInt16
  | .proto => UInt8
  | .app => UInt8
  | .dir => UInt8

def Filter.value (f : Filter) : (k : Key) → k.Value
  | .ip => f.ip.str
  | .port => f.port
  | .proto => f.proto
  | .app => f.appTag
  | .dir => f.direction

def Event.aspect (e : Event) : (k : Key) → k.Aspect
  | .ip => (e.srcIp, e.dstIp)
  | .port => (e.srcPort, e.dstPort)
  | .proto => e.ipProto
  | .app => e.appTag
  | .dir => e.direction

/-- The condition that a value of a key puts on an event. -/
def Key.Accepts : (k : Key) → k.Value → k.Aspect → Prop
  | .ip, text, (src, dst) => strstr (ipStr src) text ∨ strstr (ipStr dst) text
  | .port, p, (src, dst) => p = 0 ∨ src = p ∨ dst = p
  | .proto, p, x => p = 0 ∨ x = p
  | .app, t, x => t = 0 ∨ x = t
  | .dir, d, x => d = 0xFF ∨ x = d

theorem strstr_nil (s : List UInt8) : strstr s [] = true := by
  simp [strstr]

theorem eventMatches_iff (f : Filter) (e : Event) :
    eventMatches f e = true ↔ ∀ k : Key, k.Accepts (f.value k) (e.aspect k) := by
  have hip : (f.ip.str ≠ [] ∧ ¬ strstr (ipStr e.srcIp) f.ip.str ∧
      ¬ strstr (ipStr e.dstIp) f.ip.str) ↔ ¬ Key.ip.Accepts (f.value .ip) (e.aspect .ip) := by
    simp only [Key.Accepts, Filter.value, Event.aspect, not_or, and_iff_right_iff_imp]
    rintro ⟨hsrc, -⟩ hnil
    rw [hnil] at hsrc
    exact hsrc (strstr_nil _)
  have hport : (f.port ≠ 0 ∧ e.srcPort ≠ f.port ∧ e.dstPort ≠ f.port) ↔
      ¬ Key.port.Accepts (f.value .port) (e.aspect .port) := by
    simp [Key.Accepts, Filter.value, Event.aspect]
  have hproto : (f.proto ≠ 0 ∧ e.ipProto ≠ f.proto) ↔
      ¬ Key.proto.Accepts (f.value .proto) (e.aspect .proto) := by
    simp [Key.Accepts, Filter.value, Event.aspect]
  have happ : (f.appTag ≠ 0 ∧ e.appTag ≠ f.appTag) ↔
      ¬ Key.app.Accepts (f.value .app) (e.aspect .app) := by
    simp [Key.Accepts, Filter.value, Event.aspect]
  have hdir : (f.direction ≠ 0xFF ∧ e.direction ≠ f.direction) ↔
      ¬ Key.dir.Accepts (f.value .dir) (e.aspect .dir) := by
    simp [Key.Accepts, Filter.value, Event.aspect]
  have hall : (∀ k : Key, k.Accepts (f.value k) (e.aspect k)) ↔
      Key.ip.Accepts (f.value .ip) (e.aspect .ip) ∧
      Key.port.Accepts (f.value .port) (e.aspect .port) ∧
      Key.proto.Accepts (f.value .proto) (e.aspect .proto) ∧
      Key.app.Accepts (f.value .app) (e.aspect .app) ∧
      Key.dir.Accepts (f.value .dir) (e.aspect .dir) := by
    refine ⟨fun h => ⟨h .ip, h .port, h .proto, h .app, h .dir⟩, ?_⟩
    rintro ⟨h₁, h₂, h₃, h₄, h₅⟩ k
    cases k with
    | ip => exact h₁
    | port => exact h₂
    | proto => exact h₃
    | app => exact h₄
    | dir => exact h₅
  have hite : ∀ (c : Prop) [Decidable c] (b : Bool),
      (if c then false else b) = true ↔ ¬ c ∧ b = true := by
    intro c _ b
    split <;> simp [*]
  rw [hall, eventMatches, hite, hite, hite, hite, hite, hip, hport, hproto, happ, hdir, not_not,
    not_not, not_not, not_not, not_not]
  simp only [and_true]

/-! ## What a token sets -/

def Key.word : Key → List UInt8
  | .ip => ascii "ip:"
  | .port => ascii "port:"
  | .proto => ascii "proto:"
  | .app => ascii "app:"
  | .dir => ascii "dir:"

def protoOf (p : List UInt8) : Option UInt8 :=
  if strcaseeq p (ascii "tcp") then some IPPROTO_TCP
  else if strcaseeq p (ascii "udp") then some IPPROTO_UDP
  else if strcaseeq p (ascii "icmp") then some IPPROTO_ICMP
  else none

def appOf (p : List UInt8) : Option UInt8 :=
  if strcaseeq p (ascii "dns") then some APP_DNS
  else if strcaseeq p (ascii "http") then some APP_HTTP
  else if strcaseeq p (ascii "tls") then some APP_TLS
  else none

def dirOf (p : List UInt8) : Option UInt8 :=
  if strcaseeq p (ascii "in") then some DIR_INGRESS
  else if strcaseeq p (ascii "out") then some DIR_EGRESS
  else none

/-- What the text behind the key is read as, if it is a value of the key. -/
def Key.read : (k : Key) → List UInt8 → Option k.Value
  | .ip, text => some (cstr (text.take (INET_ADDRSTRLEN - 1)))
  | .port, text => some (atoi text).toUInt32.toUInt16
  | .proto, p => protoOf p
  | .app, p => appOf p
  | .dir, p => dirOf p

/-- What a token sets a key to. -/
def Key.setting (k : Key) (tok : List UInt8) : Option k.Value :=
  if k.word.isPrefixOf tok then k.read (tok.drop k.word.length) else none

/-- A token starts with one key at most. -/
theorem word_unique {j k : Key} {tok : List UInt8} (hj : j.word.isPrefixOf tok)
    (hk : k.word.isPrefixOf tok) : j = k := by
  have hpre : j.word <+: k.word ∨ k.word <+: j.word :=
    List.prefix_or_prefix_of_prefix (List.isPrefixOf_iff_prefix.mp hj)
      (List.isPrefixOf_iff_prefix.mp hk)
  revert hpre
  cases j <;> cases k <;> decide

-- the branch of `parse_filter_str` for a key
def parseKey : Key → Filter → List UInt8 → Filter
  | .ip => parseIp
  | .port => parsePort
  | .proto => parseProto
  | .app => parseApp
  | .dir => parseDir

theorem parseToken_eq (f : Filter) (tok : List UInt8) :
    parseToken f tok =
      if Key.ip.word.isPrefixOf tok then parseKey .ip f (tok.drop Key.ip.word.length)
      else if Key.port.word.isPrefixOf tok then parseKey .port f (tok.drop Key.port.word.length)
      else if Key.proto.word.isPrefixOf tok then parseKey .proto f (tok.drop Key.proto.word.length)
      else if Key.app.word.isPrefixOf tok then parseKey .app f (tok.drop Key.app.word.length)
      else if Key.dir.word.isPrefixOf tok then parseKey .dir f (tok.drop Key.dir.word.length)
      else f := rfl

theorem parseToken_of_word {k : Key} {tok : List UInt8} (h : k.word.isPrefixOf tok) (f : Filter) :
    parseToken f tok = parseKey k f (tok.drop k.word.length) := by
  have hne : ∀ j : Key, j ≠ k → ¬ j.word.isPrefixOf tok := fun j hj hw => hj (word_unique hw h)
  have hip := hne .ip
  have hport := hne .port
  have hproto := hne .proto
  have happ := hne .app
  rw [parseToken_eq]
  cases k with
  | ip => rw [if_pos h]
  | port => rw [if_neg (hip (by decide)), if_pos h]
  | proto => rw [if_neg (hip (by decide)), if_neg (hport (by decide)), if_pos h]
  | app =>
      rw [if_neg (hip (by decide)), if_neg (hport (by decide)), if_neg (hproto (by decide)),
        if_pos h]
  | dir =>
      rw [if_neg (hip (by decide)), if_neg (hport (by decide)), if_neg (hproto (by decide)),
        if_neg (happ (by decide)), if_pos h]

theorem parseToken_of_no_word {tok : List UInt8} (h : ∀ k : Key, ¬ k.word.isPrefixOf tok)
    (f : Filter) : parseToken f tok = f := by
  rw [parseToken_eq, if_neg (h .ip), if_neg (h .port), if_neg (h .proto), if_neg (h .app),
    if_neg (h .dir)]

/-- The last byte of the address field is never written. -/
def Filter.Terminated (f : Filter) : Prop := f.ip.bytes.drop (INET_ADDRSTRLEN - 1) = [0]

theorem length_strncpy (src : List UInt8) (n : Nat) : (strncpy src n).length = n := by
  simp [strncpy]
  omega

theorem terminated_any : Filter.any.Terminated := rfl

theorem terminated_parseKey {f : Filter} (h : f.Terminated) (k : Key) (text : List UInt8) :
    (parseKey k f text).Terminated := by
  cases k with
  | ip =>
      have hlen := length_strncpy text (INET_ADDRSTRLEN - 1)
      rw [Filter.Terminated, parseKey, parseIp, Buf.drop_memcpy _ (by omega) (by omega)]
      exact h
  | port => exact h
  | proto =>
      simp only [parseKey, parseProto]
      split_ifs <;> exact h
  | app =>
      simp only [parseKey, parseApp]
      split_ifs <;> exact h
  | dir =>
      simp only [parseKey, parseDir]
      split_ifs <;> exact h

theorem terminated_parseToken {f : Filter} (h : f.Terminated) (tok : List UInt8) :
    (parseToken f tok).Terminated := by
  by_cases hw : ∃ k : Key, k.word.isPrefixOf tok
  · obtain ⟨k, hk⟩ := hw
    rw [parseToken_of_word hk]
    exact terminated_parseKey h k _
  · rw [parseToken_of_no_word (fun k hk => hw ⟨k, hk⟩)]
    exact h

theorem str_parseIp {f : Filter} (h : f.Terminated) (text : List UInt8) :
    (parseIp f text).ip.str = cstr (text.take (INET_ADDRSTRLEN - 1)) := by
  have hlen := length_strncpy text (INET_ADDRSTRLEN - 1)
  have hbytes : (parseIp f text).ip.bytes = strncpy text (INET_ADDRSTRLEN - 1) ++ [0] := by
    rw [parseIp, Buf.memcpy_bytes _ (by omega), hlen, Nat.zero_add, h, List.take_zero,
      List.nil_append]
  rw [Buf.str, hbytes, cstr_append_zero, strncpy, cstr_append_replicate]

theorem value_parseKey_self {f : Filter} (h : f.Terminated) (k : Key) (text : List UInt8) :
    (parseKey k f text).value k = (k.read text).getD (f.value k) := by
  cases k with
  | ip => exact str_parseIp h text
  | port => rfl
  | proto =>
      simp only [parseKey, parseProto, Key.read, protoOf, Filter.value]
      split_ifs <;> rfl
  | app =>
      simp only [parseKey, parseApp, Key.read, appOf, Filter.value]
      split_ifs <;> rfl
  | dir =>
      simp only [parseKey, parseDir, Key.read, dirOf, Filter.value]
      split_ifs <;> rfl

theorem value_parseKey_ne {j k : Key} (hne : j ≠ k) (f : Filter) (text : List UInt8) :
    (parseKey j f text).value k = f.value k := by
  cases j with
  | ip => cases k <;> first | exact absurd rfl hne | rfl
  | port => cases k <;> first | exact absurd rfl hne | rfl
  | proto =>
      simp only [parseKey, parseProto]
      cases k <;> first | exact absurd rfl hne | (split_ifs <;> rfl)
  | app =>
      simp only [parseKey, parseApp]
      cases k <;> first | exact absurd rfl hne | (split_ifs <;> rfl)
  | dir =>
      simp only [parseKey, parseDir]
      cases k <;> first | exact absurd rfl hne | (split_ifs <;> rfl)

theorem value_parseToken {f : Filter} (h : f.Terminated) (k : Key) (tok : List UInt8) :
    (parseToken f tok).value k = (k.setting tok).getD (f.value k) := by
  by_cases hk : k.word.isPrefixOf tok
  · rw [parseToken_of_word hk, value_parseKey_self h, Key.setting, if_pos hk]
  · rw [Key.setting, if_neg hk]
    by_cases hw : ∃ j : Key, j.word.isPrefixOf tok
    · obtain ⟨j, hj⟩ := hw
      have hne : j ≠ k := by
        rintro rfl
        exact hk hj
      rw [parseToken_of_word hj, value_parseKey_ne hne]
      rfl
    · rw [parseToken_of_no_word fun j hj => hw ⟨j, hj⟩]
      rfl

/-! ## The filter of a list of tokens -/

def Key.settings (k : Key) (toks : List (List UInt8)) : List k.Value := toks.filterMap k.setting

/-- The value that counts of a key. -/
def Key.last (k : Key) (toks : List (List UInt8)) : k.Value :=
  lastOf (fun k : Key => Filter.any.value k) (fun k => k.settings toks) k

theorem value_foldl (toks : List (List UInt8)) (k : Key) :
    (toks.foldl parseToken .any).value k = k.last toks := by
  have hinv : ∀ f tok, Filter.Terminated f → (parseToken f tok).Terminated :=
    fun _ tok h => terminated_parseToken h tok
  let get (f : Filter) : k.Value := f.value k
  have hget : ∀ f tok, Filter.Terminated f →
      get (parseToken f tok) = (k.setting tok).getD (get f) :=
    fun _ tok h => value_parseToken h k tok
  exact foldl_eq_getLastD hinv hget terminated_any toks

theorem length_le_of_mem_intercalate {α : Type} {x : α} {l : List α} {ls : List (List α)}
    (h : l ∈ ls) : l.length ≤ ([x].intercalate ls).length := by
  induction ls with
  | nil => cases h
  | cons m ls ih =>
      cases ls with
      | nil => simp [List.mem_singleton.mp h]
      | cons n ls =>
          rw [List.intercalate_cons_cons]
          rcases List.mem_cons.mp h with rfl | hm
          · simp
          · have := ih hm
            simp only [List.length_append]
            omega

/-- Tokens that `strtok` gives back: without blanks and not empty. -/
def IsToken (t : List UInt8) : Prop := t ≠ [] ∧ 32 ∉ t

instance (t : List UInt8) : Decidable (IsToken t) := inferInstanceAs (Decidable (_ ∧ _))

theorem strtok_intercalate {toks : List (List UInt8)} (h : ∀ t ∈ toks, IsToken t) :
    strtok ([32].intercalate toks) = toks := by
  rw [strtok]
  by_cases hnil : toks = []
  · subst hnil
    rfl
  · rw [List.splitOn_intercalate 32 (fun t ht => (h t ht).2) hnil, List.filter_eq_self]
    intro t ht
    simpa using (h t ht).1

theorem parseFilterStr_intercalate {toks : List (List UInt8)} (h : ∀ t ∈ toks, IsToken t)
    (hlen : ([32].intercalate toks).length ≤ 127) :
    parseFilterStr ([32].intercalate toks) = toks.foldl parseToken .any := by
  rw [parseFilterStr, List.take_of_length_le hlen, strtok_intercalate h]

theorem parseFilterStr_token {t : List UInt8} (h : IsToken t) (hlen : t.length ≤ 127) :
    parseFilterStr t = parseToken .any t := by
  have hsingle := @parseFilterStr_intercalate [t] (by simpa using h)
  simp only [List.intercalate_singleton, List.foldl_cons, List.foldl_nil] at hsingle
  exact hsingle hlen

/-! ## Tokens that agree -/

theorem accepts_any (k : Key) (x : k.Aspect) : k.Accepts (Filter.any.value k) x := by
  cases k with
  | ip => exact Or.inl (strstr_nil _)
  | port => exact Or.inl rfl
  | proto => exact Or.inl rfl
  | app => exact Or.inl rfl
  | dir => exact Or.inl rfl

theorem exists_event (x : ∀ k : Key, k.Aspect) : ∃ e : Event, ∀ k, e.aspect k = x k := by
  refine ⟨{ Event.zero with
    srcIp := (x .ip).1, dstIp := (x .ip).2, srcPort := (x .port).1, dstPort := (x .port).2,
    ipProto := x .proto, appTag := x .app, direction := x .dir }, fun k => ?_⟩
  cases k <;> rfl

/-- An event passes the filters of all tokens if it is accepted by all that they set. -/
theorem eventMatches_tokens_iff {toks : List (List UInt8)} (h : ∀ t ∈ toks, IsToken t)
    (hlen : ([32].intercalate toks).length ≤ 127) (e : Event) :
    (∀ t ∈ toks, eventMatches (parseFilterStr t) e = true) ↔
      ∀ k : Key, ∀ v ∈ k.settings toks, k.Accepts v (e.aspect k) := by
  have htok : ∀ t ∈ toks, (eventMatches (parseFilterStr t) e = true ↔
      ∀ k : Key, k.Accepts ((k.setting t).getD (Filter.any.value k)) (e.aspect k)) := by
    intro t ht
    rw [parseFilterStr_token (h t ht) ((length_le_of_mem_intercalate ht).trans hlen),
      eventMatches_iff]
    simp only [value_parseToken terminated_any]
  constructor
  · intro hall k v hv
    obtain ⟨t, ht, hset⟩ := List.mem_filterMap.mp hv
    have hk := (htok t ht).mp (hall t ht) k
    rwa [hset] at hk
  · intro hall t ht
    refine (htok t ht).mpr fun k => ?_
    cases hset : k.setting t with
    | none => exact accepts_any k _
    | some v => exact hall k v (List.mem_filterMap.mpr ⟨t, ht, hset⟩)

/-- No value set for a key excludes what the last one accepts. -/
structure Agree (toks : List (List UInt8)) : Prop where
  ip : ∀ text ∈ Key.ip.settings toks, ∀ x,
    strstr (ipStr x) (Key.ip.last toks) → strstr (ipStr x) text
  port : ∀ p ∈ Key.port.settings toks, p = 0 ∨ p = Key.port.last toks
  proto : ∀ p ∈ Key.proto.settings toks, p = Key.proto.last toks
  app : ∀ t ∈ Key.app.settings toks, t = Key.app.last toks
  dir : ∀ d ∈ Key.dir.settings toks, d = Key.dir.last toks

section Agree
variable {toks : List (List UInt8)}

/-- The values read for the protocol, the application and the direction are not those for any. -/
theorem ne_any_of_mem_settings {k : Key} (hip : k ≠ .ip) (hport : k ≠ .port) {v : k.Value}
    (h : v ∈ k.settings toks) : v ≠ Filter.any.value k := by
  obtain ⟨t, -, hset⟩ := List.mem_filterMap.mp h
  rw [Key.setting] at hset
  split at hset
  · cases k with
    | ip => exact absurd rfl hip
    | port => exact absurd rfl hport
    | proto =>
        simp only [Key.read, protoOf] at hset
        split_ifs at hset <;> cases hset <;> decide
    | app =>
        simp only [Key.read, appOf] at hset
        split_ifs at hset <;> cases hset <;> decide
    | dir =>
        simp only [Key.read, dirOf] at hset
        split_ifs at hset <;> cases hset <;> decide
  · cases hset

/-- A last value other than an address text accepts some event. -/
theorem exists_accepted {k : Key} (hip : k ≠ .ip) (v : k.Value) : ∃ x, k.Accepts v x := by
  cases k with
  | ip => exact absurd rfl hip
  | port => exact ⟨(v, v), Or.inr (Or.inl rfl)⟩
  | proto => exact ⟨v, Or.inr rfl⟩
  | app => exact ⟨v, Or.inr rfl⟩
  | dir => exact ⟨v, Or.inr rfl⟩

theorem agree_iff : Agree toks ↔
    ∀ k : Key, ∀ v ∈ k.settings toks, ∀ x, k.Accepts (k.last toks) x → k.Accepts v x := by
  constructor
  · intro h k v hv x hx
    cases k with
    | ip => exact hx.imp (h.ip v hv _) (h.ip v hv _)
    | port =>
        rcases h.port v hv with hz | hl
        · exact Or.inl hz
        · rw [hl]
          exact hx
    | proto => rw [h.proto v hv]; exact hx
    | app => rw [h.app v hv]; exact hx
    | dir => rw [h.dir v hv]; exact hx
  · intro h
    refine ⟨fun text ht x hx => ?_, fun p hp => ?_, fun p hp => ?_, fun t ht => ?_, fun d hd => ?_⟩
    · simpa [Key.Accepts] using h .ip text ht (x, x) (Or.inl hx)
    · have hp' := h .port p hp (Key.port.last toks, Key.port.last toks) (Or.inr (Or.inl rfl))
      simpa [Key.Accepts, eq_comm] using hp'
    · have hne := ne_any_of_mem_settings (by decide) (by decide) hp
      exact ((h .proto p hp (Key.proto.last toks) (Or.inr rfl)).resolve_left hne).symm
    · have hne := ne_any_of_mem_settings (by decide) (by decide) ht
      exact ((h .app t ht (Key.app.last toks) (Or.inr rfl)).resolve_left hne).symm
    · have hne := ne_any_of_mem_settings (by decide) (by decide) hd
      exact ((h .dir d hd (Key.dir.last toks) (Or.inr rfl)).resolve_left hne).symm

theorem exists_unaccepted_iff :
    (∃ k : Key, ∀ x, ¬ k.Accepts (k.last toks) x) ↔
      ∀ x, ¬ strstr (ipStr x) (Key.ip.last toks) := by
  constructor
  · rintro ⟨k, hk⟩ x hx
    by_cases hip : k = .ip
    · subst hip
      exact hk (x, x) (Or.inl hx)
    · obtain ⟨y, hy⟩ := exists_accepted hip (k.last toks)
      exact hk y hy
  · exact fun h => ⟨.ip, fun x hx => hx.elim (h x.1) (h x.2)⟩

end Agree

end EbpfTools.Pksniff
