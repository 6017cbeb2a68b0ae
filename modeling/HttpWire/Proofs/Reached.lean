import HttpWire.Proofs.AfterHeader
import HttpWire.Proofs.Recasting
import HttpWire.Proofs.FieldSection
import HttpWire.Proofs.PlainBoundary

namespace HttpWire.Reader

inductive Reached : Reader → Prop
  | fresh (skip : Bool) : Reached { skipStartLine := skip }
  | call {σ : Type} {r : Reader} {x : Reading} {handler : Handler σ} {s : σ} {bytes : Bytes} :
    Reached r → (r.read handler s bytes).2 = .ok x → Reached x.reader
  | finish {σ : Type} {r next : Reader} {handler : Handler σ} {s : σ} :
    Reached r → (r.finish handler s).2 = .ok next → Reached next

theorem read_reader {σ : Type} (r : Reader) (handler : Handler σ) (s : σ) (bytes : Bytes) (x : Reading)
    (ran : (r.read handler s bytes).2 = .ok x) :
    ∃ y n, (scan r bytes).result = .ok y ∧ x.reader = y.reader.counting n := by
  unfold read at ran
  dsimp only at ran
  split at ran
  · cases ran
  · cases ended : (scan r bytes).result with
    | error e =>
      rw [ended] at ran
      cases ran
    | ok y =>
      rw [ended] at ran
      cases ran
      exact ⟨y, _, rfl, rfl⟩

theorem finish_reader {σ : Type} (r next : Reader) (handler : Handler σ) (s : σ)
    (ran : (r.finish handler s).2 = .ok next) : next = { r with phase := .done } := by
  unfold finish at ran
  split at ran
  · cases ran
  · split at ran
    · cases ran
    · cases ran
      rfl

theorem reached_keeps {holds : Reader → Prop} (fresh : ∀ skip, holds { skipStartLine := skip })
    (step : ∀ r bytes, holds r → (turn r bytes).Keeps (fun _ => True) holds)
    (counting : ∀ r n, holds r → holds (r.counting n))
    (ended : ∀ r, holds r → holds { r with phase := .done }) (r : Reader) (reached : Reached r) :
    holds r := by
  induction reached with
  | fresh skip => exact fresh skip
  | call _ ran ih =>
    obtain ⟨y, n, scanned, same⟩ := read_reader _ _ _ _ _ ran
    rw [same]
    exact counting _ _ ((scan_keeps step _ _ ih).2 y scanned)
  | finish _ ran ih =>
    rw [finish_reader _ _ _ _ ran]
    exact ended _ ih

end HttpWire.Reader
