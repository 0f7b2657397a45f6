import EbpfTools.Lib.Wire

/-!
# TLS ClientHello records

A ClientHello handshake message in a record of its own. The extension block is optional.
-/

namespace EbpfTools.Lib

structure TlsExtension where
  type : UInt16
  data : List UInt8
  data_lt : data.length < 2 ^ 16

def TlsExtension.encode (x : TlsExtension) : List UInt8 :=
  beBytes 2 x.type.toNat ++ beBytes 2 x.data.length ++ x.data

theorem TlsExtension.length_encode (x : TlsExtension) : x.encode.length = 4 + x.data.length := by
  simp only [encode, List.length_append, length_beBytes]

def encodeExtensions (xs : List TlsExtension) : List UInt8 := xs.flatMap TlsExtension.encode

@[simp] theorem encodeExtensions_nil : encodeExtensions [] = [] := rfl

@[simp] theorem encodeExtensions_cons (x : TlsExtension) (xs : List TlsExtension) :
    encodeExtensions (x :: xs) = x.encode ++ encodeExtensions xs :=
  List.flatMap_cons

/-- The extension block, with its length in front. -/
def encodeBlock : Option (List TlsExtension) → List UInt8
  | none => []
  | some xs => beBytes 2 (encodeExtensions xs).length ++ encodeExtensions xs

structure ClientHello where
  recordVersion : UInt16
  version : UInt16
  random : List UInt8
  random_length : random.length = 32
  sessionId : List UInt8
  sessionId_lt : sessionId.length < 2 ^ 8
  cipherSuites : List UInt16
  cipherSuites_lt : 2 * cipherSuites.length < 2 ^ 16
  compression : List UInt8
  compression_lt : compression.length < 2 ^ 8
  block : Option (List TlsExtension)
  extensions_lt : (encodeExtensions (block.getD [])).length < 2 ^ 16

namespace ClientHello

/-- A hello without a block has no extensions. -/
def extensions (m : ClientHello) : List TlsExtension := m.block.getD []

def suites (m : ClientHello) : List UInt8 :=
  m.cipherSuites.flatMap fun s => beBytes 2 s.toNat

theorem length_suites (m : ClientHello) : m.suites.length = 2 * m.cipherSuites.length := by
  rw [suites]
  induction m.cipherSuites with
  | nil => rfl
  | cons s ss ih =>
      rw [List.flatMap_cons, List.length_append, length_beBytes, ih, List.length_cons]
      omega

/-- The five parts of variable length behind the random bytes. -/
def tail (m : ClientHello) : List UInt8 :=
  [UInt8.ofNat m.sessionId.length] ++ (m.sessionId ++ (beBytes 2 m.suites.length ++ (m.suites ++
    ([UInt8.ofNat m.compression.length] ++ (m.compression ++ encodeBlock m.block)))))

/-- The body of the handshake message. -/
def body (m : ClientHello) : List UInt8 := beBytes 2 m.version.toNat ++ m.random ++ m.tail

/-- The record: its header, the handshake header and the body. -/
def encode (m : ClientHello) : List UInt8 :=
  [0x16] ++ beBytes 2 m.recordVersion.toNat ++ beBytes 2 (4 + m.body.length) ++ [0x01] ++
    beBytes 3 m.body.length ++ m.body

end ClientHello

/-! ## Server names -/

structure ServerName where
  type : UInt8
  name : List UInt8
  name_lt : name.length < 2 ^ 16

def ServerName.encode (n : ServerName) : List UInt8 :=
  [n.type] ++ beBytes 2 n.name.length ++ n.name

/-- The data of a server_name extension. -/
def serverNames (ns : List ServerName) : List UInt8 :=
  beBytes 2 (ns.flatMap ServerName.encode).length ++ ns.flatMap ServerName.encode

/-- The first name of type host_name. -/
def hostName (ns : List ServerName) : Option (List UInt8) :=
  (ns.find? fun n => n.type = 0).map ServerName.name

/-- The first server_name extension is one of the first 16 extensions and holds the names `ns`. -/
def ClientHello.Names (m : ClientHello) (ns : List ServerName) : Prop :=
  ∃ pre x post, m.extensions = pre ++ x :: post ∧ (∀ y ∈ pre, y.type ≠ 0) ∧ pre.length < 16 ∧
    x.type = 0 ∧ x.data = serverNames ns

/-! ## Reading a record by its length fields -/

/-- Where the extensions of the ClientHello at the start of `p` begin. -/
def extensionsAt (p : List UInt8) : Nat :=
  let suites := 44 + (p.getD 43 0).toNat
  let compression := suites + 2 + be16 p suites
  compression + 1 + (p.getD compression 0).toNat + 2

/-- Where they end by the length field in front of them. -/
def extensionsEnd (p : List UInt8) : Nat := extensionsAt p + be16 p (extensionsAt p - 2)

/-- The extension at `j` is reached from the one at `i` over extensions of other types than 0. -/
inductive LeadsTo (p : List UInt8) : Nat → Nat → Prop
  | here (i : Nat) : LeadsTo p i i
  | skip {i j : Nat} : be16 p i ≠ 0 → LeadsTo p (i + 4 + be16 p (i + 2)) j → LeadsTo p i j

/-- The same over fewer than `n` extensions. -/
inductive LeadsToWithin (p : List UInt8) : Nat → Nat → Nat → Prop
  | here (n i : Nat) : LeadsToWithin p (n + 1) i i
  | skip {n i j : Nat} : be16 p i ≠ 0 → LeadsToWithin p n (i + 4 + be16 p (i + 2)) j →
      LeadsToWithin p (n + 1) i j

theorem LeadsToWithin.leadsTo {p : List UInt8} {n i j : Nat} (h : LeadsToWithin p n i j) :
    LeadsTo p i j := by
  induction h with
  | here n i => exact .here i
  | skip hne _ ih => exact .skip hne ih

theorem LeadsToWithin.le {p : List UInt8} {n i j : Nat} (h : LeadsToWithin p n i j) : i ≤ j := by
  induction h with
  | here n i => exact le_refl i
  | skip hne _ ih => omega

theorem LeadsTo.unique {p : List UInt8} {i j k : Nat} (hj : LeadsTo p i j) (hk : LeadsTo p i k)
    (hj₀ : be16 p j = 0) (hk₀ : be16 p k = 0) : j = k := by
  induction hj with
  | here i =>
      cases hk with
      | here => rfl
      | skip hne _ => exact absurd hj₀ hne
  | skip hne _ ih =>
      cases hk with
      | here => exact absurd hk₀ hne
      | skip _ hk => exact ih hk hj₀

/-- At `j` is the first server_name extension of a ClientHello. -/
structure ServerNameAt (p : List UInt8) (j : Nat) : Prop where
  handshake : p.getD 0 0 = 0x16
  clientHello : p.getD 5 0 = 0x01
  reached : LeadsTo p (extensionsAt p) j
  type_eq : be16 p j = 0

theorem ServerNameAt.unique {p : List UInt8} {j k : Nat} (hj : ServerNameAt p j)
    (hk : ServerNameAt p k) : j = k :=
  hj.reached.unique hk.reached hj.type_eq hk.type_eq

/-- The extension at `j` begins with a host name that ends inside it. -/
def HostNameInside (p : List UInt8) (j : Nat) : Prop :=
  p.getD (j + 6) 0 = 0 ∧ 5 + be16 p (j + 7) ≤ be16 p (j + 2)

instance (p : List UInt8) (j : Nat) : Decidable (HostNameInside p j) :=
  inferInstanceAs (Decidable (_ ∧ _))

/-- `shown` begins the host name that the first server_name extension of a ClientHello holds. -/
def ShowsHostName (p shown : List UInt8) : Prop :=
  ∃ j, ServerNameAt p j ∧ j + 9 ≤ p.length ∧ j + 9 ≤ extensionsEnd p ∧ HostNameInside p j ∧
    shown <+: (p.drop (j + 9)).take (be16 p (j + 7))

theorem not_showsHostName {p shown : List UInt8} {j : Nat} (hj : ServerNameAt p j)
    (h : ¬ HostNameInside p j) : ¬ ShowsHostName p shown := by
  rintro ⟨k, hk, -, -, hinside, -⟩
  exact h (hj.unique hk ▸ hinside)

end EbpfTools.Lib
