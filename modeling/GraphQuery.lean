import GraphQuery.Main
import GraphQuery.Proofs.Arguments
import GraphQuery.Proofs.Building
import GraphQuery.Proofs.CommandLine
import GraphQuery.Proofs.Descriptor.BelowLimits
import GraphQuery.Proofs.Descriptor.DepthBounds
import GraphQuery.Proofs.Descriptor.Faults
import GraphQuery.Proofs.Descriptor.Grammar
import GraphQuery.Proofs.Descriptor.Holding
import GraphQuery.Proofs.Descriptor.RoundTrip
import GraphQuery.Proofs.Descriptor.Unread
import GraphQuery.Proofs.Filter.Appending
import GraphQuery.Proofs.Filter.Recovery
import GraphQuery.Proofs.Filter.Uniformity
import GraphQuery.Proofs.Json.Doubles
import GraphQuery.Proofs.PartialConfig
import GraphQuery.Proofs.ScopeName
import GraphQuery.Proofs.Session
import GraphQuery.Proofs.Statement.DepthLimit
import GraphQuery.Proofs.Statement.FirstFault
import GraphQuery.Proofs.Statement.Layout
import GraphQuery.Proofs.Statement.Limits
import GraphQuery.Proofs.Statement.Nesting
import GraphQuery.Proofs.Statement.Quotation
import GraphQuery.Proofs.Statement.Recovery
