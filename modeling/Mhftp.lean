import Mhftp.Library.ClaimStale
import Mhftp.ReceiveCut
import Mhftp.DownloadPool
import Mhftp.DownloadHistory
import Mhftp.UploadMarks
import Mhftp.UploadCompletion
import Mhftp.MetadataCut
import Mhftp.UploadFraming
import Mhftp.MetadataPipeline
import Mhftp.WrittenFiles
import Mhftp.SessionBounds
import Mhftp.StreamFits
import Mhftp.SentBytes
import Mhftp.AdmittedChunkSize
import Mhftp.CheckTool
import Mhftp.UploadDigests
import Mhftp.CheckResume
import Mhftp.TableLoops
import Mhftp.ChunkPartition
import Mhftp.CheckedTable
import Mhftp.TableCut
import Mhftp.OptionLoop
import Mhftp.SuffixToInt
import Mhftp.SoReadCalls
import Mhftp.Recover
import Mhftp.FinishedLength
import Mhftp.InUse
import Mhftp.StatusTool
import Mhftp.SharedFiles
import Mhftp.DownloadFile
import Mhftp.Semaphore
import Mhftp.Sessions
import Mhftp.PutGet
import Mhftp.UploadTermination
import Mhftp.UploadBlocking
import Mhftp.UploadHistory
