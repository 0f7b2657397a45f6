import Mathlib.Logic.Function.Basic

/-!
# TC hooks and filters

The ingress and egress hook of an interface, the libbpf calls on them, and how the tracers use
these calls for one attach point.
-/

namespace EbpfTools.Bpf

inductive AttachPoint
  | ingress
  | egress
  deriving DecidableEq

structure TcFilter where
  progId : UInt32
  handle : UInt32
  priority : UInt32
  deriving DecidableEq

/-- The hooks that exist, each with its filters. -/
abbrev TcConfig := AttachPoint → Option (List TcFilter)

-- `struct bpf_tc_opts`
structure TcOpts where
  progFd : Int
  flags : UInt32
  progId : UInt32
  handle : UInt32
  priority : UInt32

def TcOpts.zero : TcOpts := ⟨0, 0, 0, 0, 0⟩

def EEXIST : Int := 17
def EINVAL : Int := 22

variable {σ : Type}

/-- The calls of libbpf on one interface: the state afterwards and the error. `bpf_tc_attach` also
fills in the options. -/
structure Libbpf (σ : Type) where
  bpfTcHookCreate : σ → AttachPoint → σ × Int
  bpfTcAttach : σ → AttachPoint → TcOpts → σ × TcOpts × Int
  bpfTcDetach : σ → AttachPoint → TcOpts → σ × Int
  bpfTcHookDestroy : σ → AttachPoint → σ × Int

/-- The behaviour of these calls, where `tc` is what the state holds of the configuration. -/
structure Libbpf.Lawful (lib : Libbpf σ) (tc : σ → TcConfig) : Prop where
  create_exists : ∀ s p, tc s p ≠ none → (lib.bpfTcHookCreate s p).2 = -EEXIST
  create_failed : ∀ s p, (lib.bpfTcHookCreate s p).2 ≠ 0 → tc (lib.bpfTcHookCreate s p).1 = tc s
  -- the other hook of the interface may be created with it
  create_ok : ∀ s p, (lib.bpfTcHookCreate s p).2 = 0 →
    tc (lib.bpfTcHookCreate s p).1 p = some [] ∧
      ∀ q, tc s q ≠ none → tc (lib.bpfTcHookCreate s p).1 q = tc s q
  attach_failed : ∀ s p opts, (lib.bpfTcAttach s p opts).2.2 ≠ 0 →
    tc (lib.bpfTcAttach s p opts).1 = tc s
  attach_ok : ∀ s p opts, (lib.bpfTcAttach s p opts).2.2 = 0 →
    (lib.bpfTcAttach s p opts).2.1.progId ≠ 0 ∧
      ∃ pre f post, tc s p = some (pre ++ post) ∧
        tc (lib.bpfTcAttach s p opts).1 = Function.update (tc s) p (some (pre ++ f :: post))
  detach_invalid : ∀ s p opts, opts.progFd ≠ 0 ∨ opts.progId ≠ 0 ∨ opts.flags ≠ 0 →
    (lib.bpfTcDetach s p opts).2 = -EINVAL ∧ tc (lib.bpfTcDetach s p opts).1 = tc s
  destroy_flushes : ∀ s p, tc s p ≠ none →
    tc (lib.bpfTcHookDestroy s p).1 = Function.update (tc s) p (some [])

/-! ## One attach point in `main` -/

structure TcSetup (σ : Type) where
  state : σ
  err : Int
  opts : TcOpts
  attached : Bool

/-- The hook is created unless it exists, then the program is attached to it. -/
def tcSetup (lib : Libbpf σ) (s : σ) (p : AttachPoint) (progFd : Int) : TcSetup σ :=
  let created := lib.bpfTcHookCreate s p
  if created.2 ≠ 0 ∧ created.2 ≠ -EEXIST then ⟨created.1, created.2, .zero, false⟩
  else
    let opts : TcOpts := { TcOpts.zero with progFd, priority := 1, handle := 1 }
    let attached := lib.bpfTcAttach created.1 p opts
    ⟨attached.1, attached.2.2, attached.2.1, attached.2.2 = 0⟩

/-- The cleanup of an attached program. -/
def tcCleanup (lib : Libbpf σ) (s : σ) (p : AttachPoint) (opts : TcOpts) : σ :=
  (lib.bpfTcHookDestroy (lib.bpfTcDetach s p opts).1 p).1

-- `return err < 0 ? -err : 0`
def exitCode (err : Int) : Int := if err < 0 then -err else 0

end EbpfTools.Bpf
