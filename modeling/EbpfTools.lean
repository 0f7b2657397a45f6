import EbpfTools.CamFlow.Theorems
import EbpfTools.CamFlow.Theorems.InFlight
import EbpfTools.CamIdentity.Theorems
import EbpfTools.CamTracking.Theorems
import EbpfTools.CamV2.Theorems
import EbpfTools.CamV2.Theorems.Lines
import EbpfTools.Execguard.Theorems
import EbpfTools.Execguard.Theorems.Lines
import EbpfTools.Filewatch.Theorems
import EbpfTools.Pksniff.Theorems.Filter
import EbpfTools.Pksniff.Theorems.Frames
import EbpfTools.Pksniff.Theorems.HexDump
import EbpfTools.Pksniff.Theorems.Hints
import EbpfTools.Pksniff.Theorems.LiveFile
import EbpfTools.Pksniff.Theorems.Readers
import EbpfTools.Pksniff.Theorems.SavedTimes
import EbpfTools.Pksniff.Theorems.Scrolling
import EbpfTools.Pksniff.Theorems.Sni
import EbpfTools.Pksniff.Theorems.Totals
import EbpfTools.Pksniff.Theorems.Ui
import EbpfTools.Pktrace.Theorems.Files
import EbpfTools.Privwatch.Theorems
import EbpfTools.Privwatch.Theorems.Replay
import EbpfTools.Procwatch.Theorems
import EbpfTools.Tracers.Theorems
