import LineBreak.Search.Solution
import LineBreak.Proofs.Admission
import LineBreak.Proofs.BestFirst
import LineBreak.Proofs.Comparison
import LineBreak.Proofs.Expansions
import LineBreak.Proofs.Future
import LineBreak.Proofs.History
import LineBreak.Proofs.Indentation
import LineBreak.Proofs.Overflow
import LineBreak.Proofs.Pricing
import LineBreak.Proofs.Streaming
import LineBreak.Proofs.Tokens
import LineBreak.Proofs.Gaps
import LineBreak.Proofs.Greedy
import LineBreak.Proofs.Markers
import LineBreak.Proofs.Chain
import LineBreak.Proofs.Extents
import LineBreak.Proofs.FirstToken
import LineBreak.Proofs.Moments
import LineBreak.Proofs.Frontier
