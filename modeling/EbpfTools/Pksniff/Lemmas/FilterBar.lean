import EbpfTools.Pksniff.Filter
import EbpfTools.Pksniff.Lemmas.FilterTokens

/-!
# Reading the summary of a filter
-/

namespace EbpfTools.Pksniff
open EbpfTools.Lib EbpfTools.Bpf

/-! ## Filters that a string can set -/

/-- A filter with values that tokens can set: an address text without a blank that is padded with
NULs, and the names of the protocol, the application and the direction. -/
structure Filter.Readable (f : Filter) : Prop where
  ip : f.ip.bytes = strncpy f.ip.str (INET_ADDRSTRLEN - 1) ++ [0]
  blank : 32 ∉ f.ip.str
  proto : f.proto ∈ [0, IPPROTO_TCP, IPPROTO_UDP, IPPROTO_ICMP]
  app : f.appTag ∈ [0, APP_DNS, APP_HTTP, APP_TLS]
  dir : f.direction ∈ [0xFF, DIR_INGRESS, DIR_EGRESS]

section Readable
variable {f : Filter}

theorem Filter.Readable.set_proto (h : f.Readable) {p : UInt8}
    (hp : p ∈ [0, IPPROTO_TCP, IPPROTO_UDP, IPPROTO_ICMP]) : { f with proto := p }.Readable :=
  ⟨h.ip, h.blank, hp, h.app, h.dir⟩

theorem Filter.Readable.set_app (h : f.Readable) {t : UInt8}
    (ht : t ∈ [0, APP_DNS, APP_HTTP, APP_TLS]) : { f with appTag := t }.Readable :=
  ⟨h.ip, h.blank, h.proto, ht, h.dir⟩

theorem Filter.Readable.set_dir (h : f.Readable) {d : UInt8}
    (hd : d ∈ [0xFF, DIR_INGRESS, DIR_EGRESS]) : { f with direction := d }.Readable :=
  ⟨h.ip, h.blank, h.proto, h.app, hd⟩

theorem readable_any : Filter.any.Readable where
  ip := rfl
  blank := List.not_mem_nil
  proto := List.mem_cons_self
  app := List.mem_cons_self
  dir := List.mem_cons_self

theorem terminated_of_readable (h : f.Readable) : f.Terminated := by
  have hlen := length_strncpy f.ip.str (INET_ADDRSTRLEN - 1)
  rw [Filter.Terminated, h.ip, List.drop_left' hlen]

theorem strncpy_cstr {text : List UInt8} (h : 0 ∉ text) (n : Nat) :
    strncpy (cstr (text.take n)) n = strncpy text n := by
  have hnot : 0 ∉ text.take n := fun hm => h (List.mem_of_mem_take hm)
  rw [cstr_eq_self hnot, strncpy, strncpy, List.take_take, Nat.min_self, List.length_take]
  congr 2
  omega

theorem readable_parseKey (h : f.Readable) (k : Key) {text : List UInt8}
    (hnul : 0 ∉ text) (hblank : 32 ∉ text) : (parseKey k f text).Readable := by
  cases k with
  | ip =>
      have hterm := terminated_of_readable h
      have hlen := length_strncpy text (INET_ADDRSTRLEN - 1)
      have hstr : (parseIp f text).ip.str = cstr (text.take (INET_ADDRSTRLEN - 1)) :=
        str_parseIp hterm text
      refine ⟨?_, ?_, h.proto, h.app, h.dir⟩
      · rw [parseKey, hstr, strncpy_cstr hnul, parseIp, Buf.memcpy_bytes _ (by omega), hlen,
          Nat.zero_add, hterm, List.take_zero, List.nil_append]
      · rw [parseKey, hstr, cstr_eq_self fun hm => hnul (List.mem_of_mem_take hm)]
        exact fun hm => hblank (List.mem_of_mem_take hm)
  | port => exact ⟨h.ip, h.blank, h.proto, h.app, h.dir⟩
  | proto =>
      simp only [parseKey, parseProto]
      split_ifs
      · exact h.set_proto (by decide)
      · exact h.set_proto (by decide)
      · exact h.set_proto (by decide)
      · exact h
  | app =>
      simp only [parseKey, parseApp]
      split_ifs
      · exact h.set_app (by decide)
      · exact h.set_app (by decide)
      · exact h.set_app (by decide)
      · exact h
  | dir =>
      simp only [parseKey, parseDir]
      split_ifs
      · exact h.set_dir (by decide)
      · exact h.set_dir (by decide)
      · exact h

theorem readable_parseToken (h : f.Readable) {tok : List UInt8} (hnul : 0 ∉ tok)
    (hblank : 32 ∉ tok) : (parseToken f tok).Readable := by
  by_cases hw : ∃ k : Key, k.word.isPrefixOf tok
  · obtain ⟨k, hk⟩ := hw
    rw [parseToken_of_word hk]
    exact readable_parseKey h k (fun hm => hnul (List.mem_of_mem_drop hm))
      fun hm => hblank (List.mem_of_mem_drop hm)
  · rw [parseToken_of_no_word fun k hk => hw ⟨k, hk⟩]
    exact h

theorem readable_foldl (h : f.Readable) {toks : List (List UInt8)}
    (htoks : ∀ t ∈ toks, 0 ∉ t ∧ 32 ∉ t) : (toks.foldl parseToken f).Readable := by
  induction toks generalizing f with
  | nil => exact h
  | cons t toks ih =>
      obtain ⟨⟨hnul, hblank⟩, hrest⟩ := List.forall_mem_cons.mp htoks
      exact ih (readable_parseToken h hnul hblank) hrest

end Readable

/-! ## Tokens of a string -/

theorem of_mem_splitOn {buf t : List UInt8} (h : t ∈ buf.splitOn 32) :
    32 ∉ t ∧ ∀ c ∈ t, c ∈ buf := by
  induction buf generalizing t with
  | nil =>
      rw [List.splitOn_nil] at h
      rw [List.mem_singleton.mp h]
      exact ⟨List.not_mem_nil, fun c hc => hc⟩
  | cons x buf ih =>
      rw [List.splitOn_cons_eq_if_modifyHead] at h
      split at h
      · rcases List.mem_cons.mp h with rfl | ht
        · exact ⟨List.not_mem_nil, fun c hc => absurd hc List.not_mem_nil⟩
        · exact ⟨(ih ht).1, fun c hc => List.mem_cons_of_mem x ((ih ht).2 c hc)⟩
      · rename_i hx
        cases hsplit : buf.splitOn 32 with
        | nil => exact absurd hsplit (List.splitOn_ne_nil 32 buf)
        | cons u us =>
            rw [hsplit] at h ih
            rcases List.mem_cons.mp h with rfl | ht
            · obtain ⟨hblank, hsub⟩ := ih List.mem_cons_self
              constructor
              · intro hm
                rcases List.mem_cons.mp hm with rfl | hu
                · exact hx rfl
                · exact hblank hu
              · intro c hc
                rcases List.mem_cons.mp hc with rfl | hu
                · exact List.mem_cons_self
                · exact List.mem_cons_of_mem x (hsub c hu)
            · obtain ⟨hblank, hsub⟩ := ih (List.mem_cons_of_mem u ht)
              exact ⟨hblank, fun c hc => List.mem_cons_of_mem x (hsub c hc)⟩

theorem strtok_append (a b : List UInt8) : strtok (a ++ 32 :: b) = strtok a ++ strtok b := by
  rw [strtok, List.splitOn_append_cons_self, List.filter_append]
  rfl

theorem strtok_token {t : List UInt8} (h : IsToken t) : strtok t = [t] := by
  have hsingle := @strtok_intercalate [t] (by simpa using h)
  rwa [List.intercalate_singleton] at hsingle

/-- A C string sets a filter that can be shown. -/
theorem readable_parseFilterStr {s : List UInt8} (h : 0 ∉ s) : (parseFilterStr s).Readable := by
  refine readable_foldl readable_any ?_
  intro t ht
  obtain ⟨hblank, hsub⟩ := of_mem_splitOn (List.mem_of_mem_filter ht)
  exact ⟨fun hm => h (List.mem_of_mem_take (hsub 0 hm)), hblank⟩

/-! ## The parts of the summary -/

/-- A summary of at most `n` characters from which the filter `f` is read. -/
structure Shows (f : Filter) (n : Nat) (summary : List UInt8) : Prop where
  length_le : summary.length ≤ n
  foldl_eq : (strtok summary).foldl parseToken .any = f

section Shows
variable {f : Filter} {n : Nat} {summary : List UInt8}

theorem isToken_word (k : Key) {text : List UInt8} (h : 32 ∉ text) : IsToken (k.word ++ text) := by
  have hword : k.word ≠ [] ∧ 32 ∉ k.word := by
    cases k <;> decide
  refine ⟨fun hnil => hword.1 (List.append_eq_nil_iff.mp hnil).1, fun hm => ?_⟩
  exact (List.mem_append.mp hm).elim hword.2 h

theorem parseToken_word (k : Key) (f : Filter) (text : List UInt8) :
    parseToken f (k.word ++ text) = parseKey k f text := by
  rw [parseToken_of_word (List.isPrefixOf_iff_prefix.mpr (List.prefix_append k.word text)),
    List.drop_left]

theorem Shows.cat (h : Shows f n summary) (k : Key) (text : List UInt8) (hblank : 32 ∉ text)
    (hlen : k.word.length + text.length ≤ 14) (hn : n ≤ 200) :
    Shows (parseKey k f text) (n + 15) (catSummary summary (32 :: (k.word ++ text))) := by
  have hroom := h.length_le
  have hcat : catSummary summary (32 :: (k.word ++ text)) = summary ++ 32 :: (k.word ++ text) := by
    rw [catSummary, strncat, List.take_of_length_le]
    simp only [List.length_cons, List.length_append]
    omega
  rw [hcat]
  constructor
  · simp only [List.length_cons, List.length_append]
    omega
  · rw [strtok_append, strtok_token (isToken_word k hblank), List.foldl_append, h.foldl_eq,
      List.foldl_cons, List.foldl_nil, parseToken_word]

theorem Shows.cat_tmp (h : Shows f n summary) (k : Key) (text : List UInt8)
    (hblank : 32 ∉ text) (hlen : k.word.length + text.length ≤ 14) (hn : n ≤ 200) :
    Shows (parseKey k f text) (n + 15)
      (catSummary summary (snprintfTmp (32 :: (k.word ++ text)))) := by
  have htmp : snprintfTmp (32 :: (k.word ++ text)) = 32 :: (k.word ++ text) := by
    refine List.take_of_length_le ?_
    simp only [List.length_cons, List.length_append]
    omega
  rw [htmp]
  exact h.cat k text hblank hlen hn

theorem Shows.mono (h : Shows f n summary) {m : Nat} (hm : n ≤ m) : Shows f m summary :=
  ⟨h.length_le.trans hm, h.foldl_eq⟩

theorem length_ip_le (h : f.Readable) : f.ip.str.length ≤ 15 := by
  have hstr : f.ip.str = cstr (strncpy f.ip.str 15 ++ [0]) := congrArg cstr h.ip
  rw [cstr_append_zero] at hstr
  calc
    f.ip.str.length = (cstr (strncpy f.ip.str 15)).length := congrArg List.length hstr
    _ ≤ (strncpy f.ip.str 15).length := (List.takeWhile_prefix _).length_le
    _ = 15 := length_strncpy _ _

theorem shows_ip (h : f.Readable) :
    Shows { Filter.any with ip := f.ip } 18
      (if f.ip.str ≠ [] then catSummary (strncat [] (ascii "ip:") 3) f.ip.str else []) := by
  have hlen := length_ip_le h
  split
  · have hcat : catSummary (strncat [] (ascii "ip:") 3) f.ip.str = Key.ip.word ++ f.ip.str := by
      rw [catSummary, strncat, List.take_of_length_le]
      · rfl
      · show f.ip.str.length ≤ 252
        omega
    have hip : Filter.any.ip.memcpy 0 (strncpy f.ip.str (INET_ADDRSTRLEN - 1)) = f.ip := by
      refine Buf.ext ?_
      rw [Buf.memcpy_bytes _ (by rw [length_strncpy]; decide), length_strncpy, h.ip]
      rfl
    rw [hcat]
    constructor
    · rw [List.length_append]
      show 3 + f.ip.str.length ≤ 18
      omega
    · rw [strtok_token (isToken_word .ip h.blank), List.foldl_cons, List.foldl_nil,
        parseToken_word, parseKey, parseIp, hip]
  · rename_i hempty
    have hip : f.ip = Filter.any.ip := by
      refine Buf.ext ?_
      rw [h.ip, Decidable.not_not.mp hempty]
      rfl
    rw [hip]
    exact ⟨Nat.zero_le 18, rfl⟩

theorem shows_port (h : Shows f n summary) (hport : f.port = 0) (hn : n ≤ 200) (p : UInt16) :
    Shows { f with port := p } (n + 15)
      (if p ≠ 0 then catSummary summary (snprintfTmp (ascii " port:" ++ printDecimal p.toNat))
        else summary) := by
  split
  · have hblank : 32 ∉ printDecimal p.toNat := by
      intro hm
      have hdigit := isDigit_of_mem_printDecimal hm
      exact absurd hdigit (by decide)
    have hlen : (printDecimal p.toNat).length ≤ 5 :=
      length_printDecimal_le (by decide) (p.toNat_lt.trans (by decide))
    have hcat := h.cat_tmp .port _ hblank (by show 5 + _ ≤ 14; omega) hn
    rw [parseKey, parsePort, atoi_printDecimal] at hcat
    exact hcat
  · rename_i hzero
    rw [Decidable.not_not.mp hzero, ← hport]
    exact h.mono (Nat.le_add_right n 15)

theorem shows_proto (h : Shows f n summary) (hproto : f.proto = 0) (hn : n ≤ 200) {p : UInt8}
    (hp : p ∈ [0, IPPROTO_TCP, IPPROTO_UDP, IPPROTO_ICMP]) :
    Shows { f with proto := p } (n + 15)
      (if p ≠ 0 then catSummary summary (snprintfTmp (ascii " proto:" ++ protoStr p))
        else summary) := by
  simp only [List.mem_cons, List.not_mem_nil, or_false] at hp
  rcases hp with rfl | rfl | rfl | rfl
  · rw [if_neg (by decide), ← hproto]
    exact h.mono (Nat.le_add_right n 15)
  · exact h.cat_tmp .proto (ascii "TCP") (by decide) (by decide) hn
  · exact h.cat_tmp .proto (ascii "UDP") (by decide) (by decide) hn
  · exact h.cat_tmp .proto (ascii "ICMP") (by decide) (by decide) hn

theorem shows_app (h : Shows f n summary) (happ : f.appTag = 0) (hn : n ≤ 200) {t : UInt8}
    (ht : t ∈ [0, APP_DNS, APP_HTTP, APP_TLS]) :
    Shows { f with appTag := t } (n + 15)
      (if t ≠ 0 then catSummary summary (snprintfTmp (ascii " app:" ++ appStr t))
        else summary) := by
  simp only [List.mem_cons, List.not_mem_nil, or_false] at ht
  rcases ht with rfl | rfl | rfl | rfl
  · rw [if_neg (by decide), ← happ]
    exact h.mono (Nat.le_add_right n 15)
  · exact h.cat_tmp .app (ascii "DNS") (by decide) (by decide) hn
  · exact h.cat_tmp .app (ascii "HTTP") (by decide) (by decide) hn
  · exact h.cat_tmp .app (ascii "TLS") (by decide) (by decide) hn

theorem shows_dir (h : Shows f n summary) (hdir : f.direction = 0xFF) (hn : n ≤ 200) {d : UInt8}
    (hd : d ∈ [0xFF, DIR_INGRESS, DIR_EGRESS]) :
    Shows { f with direction := d } (n + 15)
      (if d ≠ 0xFF then
        catSummary summary (if d = DIR_INGRESS then ascii " dir:in" else ascii " dir:out")
      else summary) := by
  simp only [List.mem_cons, List.not_mem_nil, or_false] at hd
  rcases hd with rfl | rfl | rfl
  · rw [if_neg (by decide), ← hdir]
    exact h.mono (Nat.le_add_right n 15)
  · exact h.cat .dir (ascii "in") (by decide) (by decide) hn
  · exact h.cat .dir (ascii "out") (by decide) (by decide) hn

end Shows

/-- The whole filter is read from its summary. -/
theorem shows_filterSummary {f : Filter} (h : f.Readable) : Shows f 78 (filterSummary f) := by
  have hip := shows_ip h
  have hport := shows_port hip rfl (by decide) f.port
  have hproto := shows_proto hport rfl (by decide) h.proto
  have happ := shows_app hproto rfl (by decide) h.app
  exact shows_dir happ rfl (by decide) h.dir

end EbpfTools.Pksniff
